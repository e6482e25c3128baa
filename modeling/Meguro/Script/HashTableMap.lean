import Meguro.Core.Transition
import Meguro.Script.HashTable
import Mathlib.Data.Nat.Bitwise

/-!
# What the hash table of the engine holds

Whatever is looked up, added and removed, and whichever allocations fail, the
chains hold one entry for each pair that was added and not removed, in the bucket
of its hash. So the table answers as a map does, and its load stays within the
bounds at which it grows and shrinks.
-/

namespace Meguro

open Transition

namespace JSHashTable

variable {κ β : Type*} [DecidableEq κ]

/-! ## Sizes -/

variable {hash : κ → UInt32} {ht : JSHashTable κ β} {pairs : κ → Option β}
  {items : List (JSHashEntry κ β)} {key : κ} {value : β} {hep : JSHashLink}

theorem overloaded_eq (n : Nat) : overloaded n = n - n / 8 := by
  unfold overloaded
  rw [Nat.shiftRight_eq_div_pow]

theorem underloaded_eq (n : Nat) : underloaded n = if n > 16 then n / 4 else 0 := by
  unfold underloaded
  rw [Nat.shiftRight_eq_div_pow]
  rfl

omit [DecidableEq κ] in
theorem nbuckets_eq (ht : JSHashTable κ β) : ht.nbuckets = 2 ^ (32 - ht.shift) :=
  Nat.one_shiftLeft _

theorem bucketHead_lt {shift : Nat} (hshift : shift ≤ 28) (keyHash : UInt32) :
    bucketHead shift keyHash < 1 <<< (jsHashBits - shift) := by
  unfold bucketHead jsHashBits
  rw [Nat.shiftRight_eq_div_pow, Nat.one_shiftLeft]
  apply Nat.div_lt_of_lt_mul
  rw [← Nat.pow_add, Nat.add_sub_cancel' (Nat.le_trans hshift (by decide))]
  exact UInt32.toNat_lt _

/-! ## Entries -/

/-- The table holds these pairs as these entries. -/
structure Stores (hash : κ → UInt32) (ht : JSHashTable κ β) (pairs : κ → Option β)
    (items : List (JSHashEntry κ β)) : Prop where
  holds : Chains.Holds (fun he => bucketHead ht.shift he.keyHash) ht.buckets ht.nbuckets items
  nodup : items.Nodup
  mem : ∀ he, he ∈ items ↔ he.keyHash = hash he.key ∧ pairs he.key = some he.value
  nentries : ht.nentries = items.length
  shift_pos : 0 < ht.shift
  shift_le : ht.shift ≤ 28
  load : ht.nentries ≤ overloaded ht.nbuckets

omit [DecidableEq κ] in
/-- The entry of a pair. -/
theorem eq_entry_iff {he : JSHashEntry κ β} : he = ⟨hash key, key, value⟩ ↔
    he.key = key ∧ he.keyHash = hash he.key ∧ some value = some he.value := by
  constructor
  · rintro rfl
    exact ⟨rfl, rfl, rfl⟩
  · rintro ⟨rfl, hhash, hvalue⟩
    rw [← hhash, Option.some.inj hvalue]

omit [DecidableEq κ] in
/-- A new table holds nothing. -/
theorem stores_newHashTable : Stores hash (newHashTable : JSHashTable κ β) (fun _ => none) [] where
  holds := .empty
  nodup := List.nodup_nil
  mem _ := ⟨fun hmem => (nomatch hmem), fun h => (nomatch h.2)⟩
  nentries := rfl
  shift_pos := (by decide : 0 < 28)
  shift_le := Nat.le_refl _
  load := Nat.zero_le _

/-- The link of a key: its entry at the front of the chain, or the end of the chain. -/
structure LinkOf (hash : κ → UInt32) (ht : JSHashTable κ β) (pairs : κ → Option β) (key : κ)
    (hep : JSHashLink) : Prop where
  bucket : hep.bucket = bucketHead ht.shift (hash key)
  before_le : hep.before ≤ (ht.buckets hep.bucket).length
  deref : ht.deref hep = (pairs key).map (JSHashEntry.mk (hash key) key)

/-- A lookup reorders a chain and returns the link of the key. -/
theorem Stores.rawLookup (h : Stores hash ht pairs items) (key : κ) :
    ∃ ht' hep, ht.rawLookup (hash key) key = (ht', hep) ∧ Stores hash ht' pairs items ∧
      LinkOf hash ht' pairs key hep ∧ ht'.shift = ht.shift ∧ ht'.nentries = ht.nentries := by
  have hlt : bucketHead ht.shift (hash key) < ht.nbuckets := bucketHead_lt h.shift_le _
  unfold JSHashTable.rawLookup
  dsimp only
  cases hfind : (ht.buckets (bucketHead ht.shift (hash key))).find?
      (fun he => he.keyHash = hash key ∧ key = he.key) with
  | some he =>
    have hmatch := List.find?_some hfind
    rw [decide_eq_true_eq] at hmatch
    have hmem := ((h.holds.mem_chain hlt).mp (List.mem_of_find?_eq_some hfind)).1
    have hvalue : pairs key = some he.value := hmatch.2 ▸ ((h.mem he).mp hmem).2
    refine ⟨_, _, rfl, { h with holds := h.holds.reorder (Chains.cons_eraseP_perm hfind) }, ?_,
      rfl, rfl⟩
    refine ⟨rfl, Nat.zero_le _, ?_⟩
    rw [hvalue]
    unfold JSHashTable.deref
    dsimp only
    rw [Function.update_self, List.getElem?_cons_zero, Option.map_some, ← hmatch.1]
    conv_lhs => rw [show he = ⟨he.keyHash, key, he.value⟩ by rw [hmatch.2]]
  | none =>
    have hvalue : pairs key = none := by
      by_contra hne
      obtain ⟨value, hvalue⟩ := Option.ne_none_iff_exists'.mp hne
      have hmem := (h.mem ⟨hash key, key, value⟩).mpr ⟨rfl, hvalue⟩
      have hnot := List.find?_eq_none.mp hfind _ ((h.holds.mem_chain hlt).mpr ⟨hmem, rfl⟩)
      exact hnot (decide_eq_true ⟨rfl, rfl⟩)
    refine ⟨_, _, rfl, h, ⟨rfl, Nat.le_refl _, ?_⟩, rfl, rfl⟩
    rw [hvalue]
    exact List.getElem?_eq_none (Nat.le_refl _)

/-! ## Resizing -/

omit [DecidableEq κ] in
/-- The loop moves every entry, if it has the number of entries. -/
theorem moveEntries_eq (newshift : Nat) (oldbuckets : List (List (JSHashEntry κ β)))
    (buckets : Nat → List (JSHashEntry κ β)) :
    moveEntries newshift oldbuckets oldbuckets.flatten.length buckets =
      some (oldbuckets.flatten.foldl
        (Chains.place fun he => bucketHead newshift he.keyHash) buckets) := by
  induction oldbuckets generalizing buckets with
  | nil => unfold moveEntries; rfl
  | cons chain oldbuckets ih =>
    rw [List.flatten_cons, List.foldl_append, List.length_append]
    cases hlength : chain.length + oldbuckets.flatten.length with
    | zero =>
      have hchain : chain = [] := List.length_eq_zero_iff.mp (by omega)
      have hrest : oldbuckets.flatten = [] := List.length_eq_zero_iff.mp (by omega)
      rw [hchain, hrest]
      unfold moveEntries
      rfl
    | succ nentries =>
      unfold moveEntries
      have hsucc : nentries.succ = chain.length + oldbuckets.flatten.length := hlength.symm
      rw [hsucc, if_neg (by omega), Nat.add_sub_cancel_left]
      exact ih _

omit [DecidableEq κ] in
/-- A resize of a table that would not be overloaded moves all entries. -/
theorem Stores.resize (h : Stores hash ht pairs items) {newshift : Nat} (hpos : 0 < newshift)
    (hle : newshift ≤ 28) (hload : ht.nentries ≤ overloaded (1 <<< (jsHashBits - newshift))) :
    ∃ ht', ht.resize true newshift = some (ht', true) ∧ Stores hash ht' pairs items ∧
      ht'.shift = newshift ∧ ht'.nentries = ht.nentries := by
  have hflatten : ((List.range ht.nbuckets).map ht.buckets).flatten.Perm items :=
    h.holds.flatMap_perm h.nodup
  have hmove := moveEntries_eq newshift ((List.range ht.nbuckets).map ht.buckets) fun _ => []
  rw [hflatten.length_eq, ← h.nentries] at hmove
  unfold JSHashTable.resize
  rw [if_neg (by decide), hmove]
  refine ⟨_, rfl, ⟨?_, h.nodup, h.mem, h.nentries, hpos, hle, hload⟩, rfl, rfl⟩
  have hempty : Chains.Holds (fun he : JSHashEntry κ β => bucketHead newshift he.keyHash)
      (fun _ => []) (1 <<< (jsHashBits - newshift)) [] := .empty
  have hlt : ∀ he ∈ ((List.range ht.nbuckets).map ht.buckets).flatten,
      bucketHead newshift he.keyHash < 1 <<< (jsHashBits - newshift) :=
    fun he _ => bucketHead_lt hle he.keyHash
  have hplaced := hempty.foldl_place hlt
  rw [List.append_nil] at hplaced
  exact hplaced.perm hflatten

/-! ## Adding -/

/-- Beyond the smallest table there is an entry for every four buckets. -/
def Dense (ht : JSHashTable κ β) : Prop := minBuckets < ht.nbuckets → ht.nbuckets ≤ 4 * ht.nentries

/-- What an add leaves: the pair is there if the add says so, and the load is kept up. -/
structure Added (hash : κ → UInt32) (ht : JSHashTable κ β) (pairs : κ → Option β) (key : κ)
    (value : β) (ht' : JSHashTable κ β) (added : Bool) : Prop where
  stores : ∃ items, Stores hash ht'
    (if added = true then Function.update pairs key (some value) else pairs) items
  nentries : ht'.nentries = ht.nentries + added.toNat
  dense : ht.Dense → ht'.Dense

/-- Nothing is added. -/
theorem Stores.not_added (h : Stores hash ht pairs items) (key : κ) (value : β) :
    Added hash ht pairs key value ht false where
  stores := ⟨items, h⟩
  nentries := rfl
  dense := id

/-- A new entry at the link of an absent key. -/
theorem Stores.newEntry (h : Stores hash ht pairs items) (hlink : LinkOf hash ht pairs key hep)
    (habsent : pairs key = none) (hload : ht.nentries < overloaded ht.nbuckets)
    (value : β) (allocEntry : Bool) :
    ∃ ht', ht.newEntry allocEntry hep (hash key) key value = (ht', allocEntry) ∧
      Added hash ht pairs key value ht' allocEntry := by
  cases allocEntry with
  | false => exact ⟨ht, rfl, h.not_added key value⟩
  | true =>
    have hlt : bucketHead ht.shift (hash key) < ht.nbuckets := bucketHead_lt h.shift_le _
    refine ⟨_, rfl, ⟨⟨hash key, key, value⟩ :: items, ?_⟩, rfl, fun hdense hmore => ?_⟩
    · refine ⟨?_, ?_, fun he => ?_, ?_, h.shift_pos, h.shift_le, hload⟩
      · have hchain := List.perm_insertIdx ⟨hash key, key, value⟩ _ hlink.before_le
        have hholds := h.holds
        rw [hlink.bucket] at hchain
        unfold nbuckets at hholds hlt ⊢
        dsimp only
        rw [hlink.bucket]
        exact hholds.insert (a := JSHashEntry.mk (hash key) key value) hlt hchain
      · refine List.nodup_cons.mpr ⟨fun hmem => ?_, h.nodup⟩
        have hvalue := ((h.mem _).mp hmem).2
        rw [habsent] at hvalue
        cases hvalue
      · rw [List.mem_cons, h.mem, if_pos rfl, eq_entry_iff]
        by_cases hkey : he.key = key
        · rw [hkey, habsent, Function.update_self]
          constructor
          · rintro (⟨-, hhash, hvalue⟩ | ⟨-, hnone⟩)
            · exact ⟨hhash, hvalue⟩
            · cases hnone
          · exact fun hentry => Or.inl ⟨rfl, hentry⟩
        · rw [Function.update_of_ne hkey]
          exact or_iff_right fun hentry => hkey hentry.1
      · exact congrArg (· + 1) h.nentries
    · exact Nat.le_trans (hdense hmore) (Nat.mul_le_mul_left 4 (Nat.le_succ _))

omit [DecidableEq κ] in
/-- An overloaded table can grow, and is neither overloaded nor sparse then. -/
theorem Stores.grow (h : Stores hash ht pairs items) (hover : overloaded ht.nbuckets ≤ ht.nentries)
    (hfew : ht.nentries < 2 ^ 30) :
    0 < ht.shift - 1 ∧ ht.nentries < overloaded (1 <<< (jsHashBits - (ht.shift - 1))) ∧
      1 <<< (jsHashBits - (ht.shift - 1)) ≤ 4 * ht.nentries := by
  have hpos := h.shift_pos
  have hle := h.shift_le
  have hload := h.load
  have hbuckets := nbuckets_eq ht
  rw [overloaded_eq] at hover hload
  have hlarge : 2 ^ 4 ≤ ht.nbuckets := by
    rw [hbuckets]
    exact Nat.pow_le_pow_right (by decide) (by omega)
  have hshift : 0 < ht.shift - 1 := by
    by_contra hone
    obtain hone : ht.shift = 1 := by omega
    rw [hbuckets, hone] at hover
    omega
  have hdouble : 1 <<< (jsHashBits - (ht.shift - 1)) = 2 * ht.nbuckets := by
    have hsucc : jsHashBits - (ht.shift - 1) = (32 - ht.shift) + 1 := by
      unfold jsHashBits
      omega
    rw [hbuckets, Nat.one_shiftLeft, hsucc, Nat.pow_succ, Nat.mul_comm]
  rw [hdouble, overloaded_eq]
  refine ⟨hshift, ?_, ?_⟩ <;> omega

/-- An add goes through, and adds the pair if the allocations succeed. -/
theorem Stores.rawAdd (h : Stores hash ht pairs items) (hlink : LinkOf hash ht pairs key hep)
    (habsent : pairs key = none) (hfew : ht.nentries < 2 ^ 30) (value : β)
    (allocTable allocEntry : Bool) :
    ∃ ht' added, ht.rawAdd allocTable allocEntry hep (hash key) key value = some (ht', added) ∧
      Added hash ht pairs key value ht' added ∧
      (allocTable = true → allocEntry = true → added = true) := by
  unfold JSHashTable.rawAdd
  by_cases hover : overloaded ht.nbuckets ≤ ht.nentries
  · rw [if_pos hover]
    cases allocTable with
    | false => exact ⟨ht, false, rfl, h.not_added key value, fun hfalse => (nomatch hfalse)⟩
    | true =>
      obtain ⟨hpos, hload, hdense⟩ := h.grow hover hfew
      obtain ⟨grown, hgrown, hstores, hshift, hnentries⟩ :=
        h.resize hpos (Nat.le_trans (Nat.sub_le ..) h.shift_le) (Nat.le_of_lt hload)
      obtain ⟨found, link, hfound, hstores, hlink, hshift', hnentries'⟩ := hstores.rawLookup key
      have hbuckets : found.nbuckets = 1 <<< (jsHashBits - (ht.shift - 1)) := by
        unfold nbuckets
        rw [hshift', hshift]
      have hcount : found.nentries = ht.nentries := hnentries'.trans hnentries
      rw [← hbuckets, ← hcount] at hload hdense
      obtain ⟨ht', hadd, hadded⟩ := hstores.newEntry hlink habsent hload value allocEntry
      rw [hgrown]
      dsimp only
      rw [hfound]
      refine ⟨ht', allocEntry, congrArg some hadd, ⟨hadded.stores, ?_, fun _ => ?_⟩, fun _ => id⟩
      · rw [hadded.nentries, hcount]
      · exact hadded.dense fun _ => hdense
  · rw [if_neg hover]
    obtain ⟨ht', hadd, hadded⟩ :=
      h.newEntry hlink habsent (Nat.lt_of_not_le hover) value allocEntry
    exact ⟨ht', allocEntry, congrArg some hadd, hadded, fun _ => id⟩

/-! ## Removing -/

/-- What a removal leaves: the pair is gone, and the load is kept up if a shrink can be. -/
structure Removed (hash : κ → UInt32) (ht : JSHashTable κ β) (pairs : κ → Option β) (key : κ)
    (allocTable : Bool) (ht' : JSHashTable κ β) : Prop where
  stores : ∃ items, Stores hash ht' (Function.update pairs key none) items
  nentries : ht'.nentries ≤ ht.nentries
  dense : allocTable = true → ht.Dense → ht'.Dense

/-- The entry of a key is taken out of its chain. -/
theorem Stores.unlink (h : Stores hash ht pairs items) (hlink : LinkOf hash ht pairs key hep)
    (hpresent : pairs key = some value) :
    0 < ht.nentries ∧
      ∃ rest, Stores hash (ht.unlink hep) (Function.update pairs key none) rest := by
  have hmem : ⟨hash key, key, value⟩ ∈ items := (h.mem _).mpr ⟨rfl, hpresent⟩
  obtain ⟨xs, ys, rfl⟩ := List.append_of_mem hmem
  have hperm : (xs ++ ⟨hash key, key, value⟩ :: ys).Perm (⟨hash key, key, value⟩ :: (xs ++ ys)) :=
    List.perm_middle
  have hnodup := List.nodup_cons.mp (hperm.nodup_iff.mp h.nodup)
  have hcount := h.nentries
  rw [hperm.length_eq, List.length_cons] at hcount
  refine ⟨by omega, xs ++ ys, ?_, hnodup.2, fun he => ?_, ?_, h.shift_pos, h.shift_le, ?_⟩
  · have hderef := hlink.deref
    rw [hpresent, Option.map_some] at hderef
    unfold deref at hderef
    obtain ⟨hbefore, hentry⟩ := List.getElem?_eq_some_iff.mp hderef
    have hchain := List.getElem_cons_eraseIdx_perm hbefore
    rw [hentry, hlink.bucket] at hchain
    have hholds := h.holds.perm hperm
    unfold nbuckets JSHashTable.unlink at *
    dsimp only
    rw [hlink.bucket]
    exact hholds.remove hchain
  · have hiff := h.mem he
    rw [hperm.mem_iff, List.mem_cons] at hiff
    by_cases hkey : he.key = key
    · rw [hkey, Function.update_self]
      constructor
      · intro hother
        obtain ⟨hhash, hvalue⟩ := hiff.mp (Or.inr hother)
        rw [hkey, hpresent] at hvalue
        have hentry : he = ⟨hash key, key, value⟩ := eq_entry_iff.mpr ⟨hkey, hhash, hvalue⟩
        exact absurd (hentry ▸ hother) hnodup.1
      · intro hnone
        cases hnone.2
    · rw [Function.update_of_ne hkey, ← hiff, eq_entry_iff]
      exact (or_iff_right fun hentry => hkey hentry.1).symm
  · unfold JSHashTable.unlink
    dsimp only
    omega
  · exact Nat.le_trans (Nat.sub_le ..) h.load

omit [DecidableEq κ] in
/-- An underloaded table can shrink, and is neither overloaded nor sparse then; without
this it is not sparse. -/
theorem Stores.shrink (h : Stores hash ht pairs items) :
    (ht.nentries < underloaded ht.nbuckets → minBuckets < ht.nbuckets ∧ ht.shift + 1 ≤ 28 ∧
      ht.nentries ≤ overloaded (1 <<< (jsHashBits - (ht.shift + 1))) ∧
      (ht.nbuckets ≤ 4 * (ht.nentries + 1) →
        1 <<< (jsHashBits - (ht.shift + 1)) ≤ 4 * ht.nentries)) ∧
    (underloaded ht.nbuckets ≤ ht.nentries → ht.Dense) := by
  have hle := h.shift_le
  have hbuckets := nbuckets_eq ht
  have hmany : minBuckets < ht.nbuckets → 32 ∣ ht.nbuckets ∧ ht.shift + 1 ≤ 28 := by
    intro hmany
    rw [hbuckets] at hmany ⊢
    have hlog : 4 < 32 - ht.shift := (Nat.pow_lt_pow_iff_right Nat.one_lt_two).mp hmany
    exact ⟨Nat.pow_dvd_pow 2 hlog, by omega⟩
  have hhalf : 2 * 1 <<< (jsHashBits - (ht.shift + 1)) = ht.nbuckets := by
    have hsucc : 32 - ht.shift = (jsHashBits - (ht.shift + 1)) + 1 := by
      unfold jsHashBits
      omega
    rw [hbuckets, Nat.one_shiftLeft, hsucc, Nat.pow_succ, Nat.mul_comm]
  rw [underloaded_eq, overloaded_eq]
  by_cases hmore : ht.nbuckets > 16
  · obtain ⟨⟨m, hm⟩, hshift⟩ := hmany hmore
    rw [if_pos hmore]
    refine ⟨fun hunder => ⟨hmore, hshift, ?_, fun _ => ?_⟩, fun hfull _ => ?_⟩ <;> omega
  · rw [if_neg hmore]
    exact ⟨fun hunder => absurd hunder (Nat.not_lt_zero _), fun _ hmany => absurd hmany hmore⟩

/-- A removal goes through. -/
theorem Stores.rawRemove (h : Stores hash ht pairs items) (hlink : LinkOf hash ht pairs key hep)
    (hpresent : pairs key = some value) (allocTable : Bool) :
    ∃ ht', ht.rawRemove allocTable hep = some ht' ∧ Removed hash ht pairs key allocTable ht' := by
  obtain ⟨hpos, items', hrest⟩ := h.unlink hlink hpresent
  have hbuckets : (ht.unlink hep).nbuckets = ht.nbuckets := by
    unfold nbuckets JSHashTable.unlink
    rfl
  have hcount : (ht.unlink hep).nentries + 1 = ht.nentries := Nat.sub_add_cancel hpos
  obtain ⟨hshrink, hfull⟩ := hrest.shrink
  rw [hbuckets, hcount] at hshrink
  rw [hbuckets] at hfull
  unfold JSHashTable.rawRemove
  dsimp only
  by_cases hunder : (ht.unlink hep).nentries < underloaded ht.nbuckets
  · obtain ⟨hmore, hshift, hload, hdense⟩ := hshrink hunder
    rw [if_pos hunder]
    cases allocTable with
    | false => exact ⟨_, rfl, ⟨items', hrest⟩, Nat.sub_le .., fun hfalse => (nomatch hfalse)⟩
    | true =>
      obtain ⟨ht', hresize, hstores, hshift', hnentries⟩ :=
        hrest.resize (Nat.succ_pos _) hshift hload
      rw [hresize]
      refine ⟨ht', rfl, ⟨items', hstores⟩, ?_, fun _ hold hmany => ?_⟩
      · rw [hnentries]
        exact Nat.sub_le ..
      · have hnew := hdense (hold hmore)
        unfold nbuckets
        rw [hshift', hnentries]
        exact hnew
  · rw [if_neg hunder]
    exact ⟨_, rfl, ⟨items', hrest⟩, Nat.sub_le .., fun _ _ => hfull (Nat.le_of_not_lt hunder)⟩

/-! ## Calls in turn -/

omit [DecidableEq κ] in
theorem dense_congr {found : JSHashTable κ β} (hshift : found.shift = ht.shift)
    (hnentries : found.nentries = ht.nentries) : found.Dense ↔ ht.Dense := by
  unfold Dense nbuckets
  rw [hshift, hnentries]

/-- A lookup in turn. -/
theorem Stores.step_lookup (h : Stores hash ht pairs items) (key : κ) :
    ∃ u, ht.step hash (.lookup key) = some u ∧ Stores hash u pairs items ∧
      u.nentries = ht.nentries ∧ (ht.Dense → u.Dense) := by
  obtain ⟨found, hep, hfound, hstores, -, hshift, hnentries⟩ := h.rawLookup key
  refine ⟨found, ?_, hstores, hnentries, (dense_congr hshift hnentries).mpr⟩
  unfold JSHashTable.step
  dsimp only
  rw [hfound]

/-- An add in turn has one outcome. -/
theorem Stores.step_add (h : Stores hash ht pairs items) (habsent : pairs key = none)
    (hfew : ht.nentries < 2 ^ 30) (value : β) (allocTable allocEntry : Bool) :
    ∃ u ok, (∀ added, ht.step hash (.add key value allocTable allocEntry added) =
        if ok = added then some u else none) ∧ Added hash ht pairs key value u ok ∧
      (allocTable = true → allocEntry = true → ok = true) := by
  obtain ⟨found, hep, hfound, hstores, hlink, hshift, hnentries⟩ := h.rawLookup key
  obtain ⟨u, ok, hadd, hadded, hok⟩ :=
    hstores.rawAdd hlink habsent (hnentries ▸ hfew) value allocTable allocEntry
  refine ⟨u, ok, fun added => ?_, ⟨hadded.stores, ?_, ?_⟩, hok⟩
  · have hnot : ¬ (found.deref hep).isSome = true := by
      rw [hlink.deref, habsent]
      exact Bool.false_ne_true
    unfold JSHashTable.step
    dsimp only
    rw [hfound]
    dsimp only
    rw [if_neg hnot, hadd]
    rfl
  · rw [hadded.nentries, hnentries]
  · exact fun hdense => hadded.dense ((dense_congr hshift hnentries).mpr hdense)

/-- A key that is in the table is not added. -/
theorem Stores.step_add_present (h : Stores hash ht pairs items) (hpresent : pairs key = some value)
    (other : β) (allocTable allocEntry added : Bool) :
    ht.step hash (.add key other allocTable allocEntry added) = none := by
  obtain ⟨found, hep, hfound, hstores, hlink, -, -⟩ := h.rawLookup key
  have hsome : (found.deref hep).isSome = true := by
    rw [hlink.deref, hpresent]
    rfl
  unfold JSHashTable.step
  dsimp only
  rw [hfound]
  exact if_pos hsome

/-- A removal in turn. -/
theorem Stores.step_remove (h : Stores hash ht pairs items) (key : κ) (allocTable : Bool) :
    ∃ u, ht.step hash (.remove key allocTable) = some u ∧
      Removed hash ht pairs key allocTable u := by
  obtain ⟨found, hep, hfound, hstores, hlink, hshift, hnentries⟩ := h.rawLookup key
  have hdense := (dense_congr hshift hnentries).mpr
  unfold JSHashTable.step
  dsimp only
  rw [hfound]
  dsimp only
  rw [hlink.deref]
  cases hpairs : pairs key with
  | none =>
    have hsame : Function.update pairs key none = pairs := by
      rw [Function.update_eq_self_iff]
      exact hpairs.symm
    exact ⟨found, rfl, ⟨items, hsame.symm ▸ hstores⟩, Nat.le_of_eq hnentries, fun _ => hdense⟩
  | some value =>
    obtain ⟨u, hremove, hremoved⟩ := hstores.rawRemove hlink hpairs allocTable
    refine ⟨u, hremove, hremoved.stores, hnentries ▸ hremoved.nentries, fun halloc hold => ?_⟩
    exact hremoved.dense halloc (hdense hold)

/-- One call leaves a table of the pairs after it. -/
theorem Stores.step {l : JSHashCall κ β} {u : JSHashTable κ β} (h : Stores hash ht pairs items)
    (hfew : ht.nentries < 2 ^ 30) (hstep : ht.step hash l = some u) :
    (∃ items, Stores hash u (pairsStep pairs l) items) ∧ u.nentries ≤ ht.nentries + 1 ∧
      (l.Shrinks → ht.Dense → u.Dense) := by
  cases l with
  | lookup key =>
    obtain ⟨u', hu', hstores, hnentries, hdense⟩ := h.step_lookup key
    obtain rfl := Option.some.inj (hu'.symm.trans hstep)
    exact ⟨⟨items, hstores⟩, hnentries ▸ Nat.le_succ _, fun _ => hdense⟩
  | add key value allocTable allocEntry added =>
    cases hpairs : pairs key with
    | some held =>
      rw [h.step_add_present hpairs] at hstep
      cases hstep
    | none =>
      obtain ⟨u', ok, hu', hadded, -⟩ := h.step_add hpairs hfew value allocTable allocEntry
      rw [hu'] at hstep
      obtain ⟨rfl, hsame⟩ := Option.ite_none_right_eq_some.mp hstep
      obtain rfl := Option.some.inj hsame
      refine ⟨hadded.stores, ?_, fun _ => hadded.dense⟩
      rw [hadded.nentries]
      exact Nat.add_le_add_left (Bool.toNat_le ok) _
  | remove key allocTable =>
    obtain ⟨u', hu', hremoved⟩ := h.step_remove key allocTable
    obtain rfl := Option.some.inj (hu'.symm.trans hstep)
    exact ⟨hremoved.stores, Nat.le_succ_of_le hremoved.nentries, hremoved.dense⟩

/-! ## Runs -/

/-- The table answers as a map does, and the calls the cache makes go through. -/
structure Represents (hash : κ → UInt32) (ht : JSHashTable κ β) (pairs : κ → Option β) : Prop where
  /-- The link of a lookup points to the entry of the key, if it has a value. -/
  finds : ∀ key, ((ht.rawLookup (hash key) key).1.deref (ht.rawLookup (hash key) key).2).map
    JSHashEntry.value = pairs key
  /-- The count is the number of keys. -/
  counts : ∃ keys : List κ, keys.Nodup ∧ keys.length = ht.nentries ∧
    ∀ key, key ∈ keys ↔ (pairs key).isSome = true
  /-- An absent key is added if the allocations succeed. -/
  adds : ∀ key value allocTable allocEntry, pairs key = none →
    ∃ added, (ht.step hash (.add key value allocTable allocEntry added)).isSome = true ∧
      (allocTable = true → allocEntry = true → added = true)
  removes : ∀ key allocTable, (ht.step hash (.remove key allocTable)).isSome = true

theorem Stores.represents (h : Stores hash ht pairs items) (hfew : ht.nentries < 2 ^ 30) :
    Represents hash ht pairs where
  finds key := by
    obtain ⟨found, hep, hfound, -, hlink, -, -⟩ := h.rawLookup key
    rw [hfound, hlink.deref, Option.map_map]
    exact Option.map_id' ..
  counts := by
    refine ⟨items.map JSHashEntry.key, ?_, ?_, fun key => ?_⟩
    · apply h.nodup.map_on
      intro he hhe other hother hkey
      obtain ⟨hhash, hvalue⟩ := (h.mem he).mp hhe
      obtain ⟨hhash', hvalue'⟩ := (h.mem other).mp hother
      rw [← hkey, hvalue] at hvalue'
      obtain ⟨keyHash, own, held⟩ := he
      exact (eq_entry_iff.mpr ⟨hkey.symm, hhash', hvalue'⟩).symm ▸ by rw [← hhash]
    · rw [List.length_map, h.nentries]
    · rw [List.mem_map, Option.isSome_iff_exists]
      constructor
      · rintro ⟨he, hhe, rfl⟩
        exact ⟨he.value, ((h.mem he).mp hhe).2⟩
      · rintro ⟨value, hvalue⟩
        exact ⟨⟨hash key, key, value⟩, (h.mem _).mpr ⟨rfl, hvalue⟩, rfl⟩
  adds key value allocTable allocEntry habsent := by
    obtain ⟨u, ok, hu, -, hok⟩ := h.step_add habsent hfew value allocTable allocEntry
    refine ⟨ok, ?_, hok⟩
    rw [hu, if_pos rfl]
    rfl
  removes key allocTable := by
    obtain ⟨u, hu, -⟩ := h.step_remove key allocTable
    rw [hu]
    rfl

/-- After every run of fewer calls than would wrap the shift, the table stores the pairs. -/
theorem stores_of_run {ls : List (JSHashCall κ β)} (hfew : ls.length < 2 ^ 30)
    (hrun : run (step hash) newHashTable ls = some ht) :
    (∃ items, Stores hash ht (addedPairs ls) items) ∧ ht.nentries ≤ ls.length ∧
      ((∀ l ∈ ls, l.Shrinks) → ht.Dense) := by
  induction ls using List.reverseRecOn generalizing ht with
  | nil =>
    obtain rfl := Option.some.inj hrun
    exact ⟨⟨[], stores_newHashTable⟩, Nat.le_refl _, fun _ hmany =>
      absurd hmany (Nat.lt_irrefl minBuckets)⟩
  | append_singleton ls l ih =>
    obtain ⟨before, hbefore, hstep⟩ := run_snoc.mp hrun
    rw [List.length_append, List.length_singleton] at hfew ⊢
    obtain ⟨⟨items, hstores⟩, hcount, hdense⟩ := ih (Nat.lt_of_succ_lt hfew) hbefore
    have hroom : before.nentries < 2 ^ 30 := Nat.lt_of_le_of_lt hcount (Nat.lt_of_succ_lt hfew)
    obtain ⟨hnext, hnentries, hload⟩ := hstores.step hroom hstep
    rw [addedPairs_snoc]
    refine ⟨hnext, Nat.le_trans hnentries (Nat.succ_le_succ hcount), fun hshrinks => ?_⟩
    obtain ⟨hold, hlast⟩ := List.forall_mem_append.mp hshrinks
    exact hload (hlast l (List.mem_singleton_self l)) (hdense hold)

/-- After every run of lookups, adds and removals, whichever allocations failed, the table
answers as the map of the pairs that were added and not removed. -/
theorem represents_of_run {ls : List (JSHashCall κ β)} (hfew : ls.length < 2 ^ 30)
    (hrun : run (step hash) newHashTable ls = some ht) :
    Represents hash ht (addedPairs ls) := by
  obtain ⟨⟨items, hstores⟩, hcount, -⟩ := stores_of_run hfew hrun
  exact hstores.represents (Nat.lt_of_le_of_lt hcount hfew)

/-- Fifteen keys with four hash values make the smallest table grow. -/
def crowdedCalls : List (JSHashCall Nat Nat) :=
  (List.range 15).map (fun key => .add key (10 * key) true true true) ++
    [.lookup 5, .remove 1 true]

/-- The hash function of these calls. -/
def crowdedHash (key : Nat) : UInt32 := UInt32.ofNat (key % 4)

theorem isSome_run_crowdedCalls :
    (run (step crowdedHash) newHashTable crowdedCalls).isSome = true := by
  decide +kernel

/-- The table these calls leave. -/
def crowdedTable : JSHashTable Nat Nat :=
  (run (step crowdedHash) newHashTable crowdedCalls).get isSome_run_crowdedCalls

theorem represents_crowdedTable :
    Represents crowdedHash crowdedTable (addedPairs crowdedCalls) :=
  represents_of_run (by decide) (Option.some_get _).symm

/-- The table is at most seven eighths full, and beyond the smallest size at least a
quarter, unless a shrink was denied its memory. -/
theorem loadBounds_of_run {ls : List (JSHashCall κ β)} (hfew : ls.length < 2 ^ 30)
    (hrun : run (step hash) newHashTable ls = some ht) :
    8 * ht.nentries ≤ 7 * ht.nbuckets ∧ ((∀ l ∈ ls, l.Shrinks) →
      minBuckets < ht.nbuckets → ht.nbuckets ≤ 4 * ht.nentries) := by
  obtain ⟨⟨items, hstores⟩, -, hdense⟩ := stores_of_run hfew hrun
  have hload := hstores.load
  rw [overloaded_eq] at hload
  have hdvd : 8 ∣ ht.nbuckets := by
    have hle := hstores.shift_le
    rw [nbuckets_eq]
    exact Nat.pow_dvd_pow 2 (by omega : 3 ≤ 32 - ht.shift)
  refine ⟨?_, hdense⟩
  omega

theorem loadBounds_crowdedTable :
    8 * crowdedTable.nentries ≤ 7 * crowdedTable.nbuckets ∧ ((∀ l ∈ crowdedCalls, l.Shrinks) →
      minBuckets < crowdedTable.nbuckets → crowdedTable.nbuckets ≤ 4 * crowdedTable.nentries) :=
  loadBounds_of_run (by decide) (Option.some_get _).symm

end JSHashTable

end Meguro
