import Meguro.Core.Chains
import Meguro.Uthash.Buckets
import Mathlib.Data.List.Perm.Lattice

/-!
# Expanding the buckets

The two loops of `HASH_EXPAND_BUCKETS` take every item out of its old chain and
push it onto its new one. What is moved is in the new buckets and what is not
still has its old links, so the loops end with all items in twice the buckets,
and the multiplier of a bucket is the number of ideal lengths its chain has. Only
twice 2^31 buckets are none, and the first item is written outside of them.
-/

namespace Meguro

open LinkedList

namespace UTHash

variable {ι κ : Type*} [DecidableEq ι]

/-! ## Bucket numbers -/

/-- Among a power of two of buckets `HASH_TO_BKT` is the remainder. -/
theorem hashToBkt_two_pow {hashv numBuckets : UInt32} {k : Nat} (h : numBuckets.toNat = 2 ^ k) :
    hashToBkt hashv numBuckets = hashv.toNat % 2 ^ k := by
  unfold hashToBkt
  rw [UInt32.toNat_and, toNat_sub_one (h ▸ Nat.two_pow_pos k), h]
  exact Nat.and_two_pow_sub_one_eq_mod ..

/-- A bucket number is in bounds. -/
theorem hashToBkt_lt {hashv numBuckets : UInt32} {k : Nat} (h : numBuckets.toNat = 2 ^ k) :
    hashToBkt hashv numBuckets < numBuckets.toNat := by
  rw [hashToBkt_two_pow h, h]
  exact Nat.mod_lt _ (Nat.two_pow_pos k)

/-- The bucket of an item among this many. -/
def indexOf (hashv : ι → UInt32) (numBuckets : UInt32) (a : ι) : Nat :=
  hashToBkt (hashv a) numBuckets

/-- Below 2^31 buckets twice as many are counted. -/
theorem toNat_double {numBuckets log2NumBuckets : UInt32}
    (hpow : numBuckets.toNat = 2 ^ log2NumBuckets.toNat) (hroom : numBuckets.toNat ≠ 2 ^ 31) :
    (numBuckets * 2).toNat = numBuckets.toNat * 2 ∧
      (numBuckets * 2).toNat = 2 ^ (log2NumBuckets + 1).toNat := by
  have hlt := numBuckets.toNat_lt
  have hlog : log2NumBuckets.toNat < 31 := by
    rw [hpow] at hlt hroom
    have h32 := (Nat.pow_lt_pow_iff_right (by decide : 1 < 2)).mp hlt
    have h31 : log2NumBuckets.toNat ≠ 31 := fun h => hroom (by rw [h])
    omega
  have hdouble : (numBuckets * 2).toNat = numBuckets.toNat * 2 := by
    have hbound : 2 ^ log2NumBuckets.toNat < 2 ^ 31 := Nat.pow_lt_pow_right (by decide) hlog
    rw [UInt32.toNat_mul]
    change numBuckets.toNat * 2 % 2 ^ 32 = numBuckets.toNat * 2
    omega
  refine ⟨hdouble, ?_⟩
  rw [hdouble, toNat_add_one (by omega), pow_succ, hpow]

/-! ## The loops -/

/-- What the loops have reached when these items are moved. -/
structure Moved (hashv : ι → UInt32) (num ideal : UInt32) (s : ExpandState ι) (moved : List ι) :
    Prop where
  holds : InBuckets s.bkt (indexOf hashv num) s.newBuckets num.toNat moved
  /-- A chain no longer than the ideal one leaves its multiplier alone. -/
  expandMult : ∀ i < num.toNat, (s.newBuckets i).expandMult =
    if (s.newBuckets i).count > ideal then (s.newBuckets i).count / ideal else 0

section Loops

variable {hashv : ι → UInt32} {num ideal : UInt32} {s : ExpandState ι} {moved chain : List ι}
  {a : ι}

omit [DecidableEq ι] in
theorem moved_start (bkt : ι → Links ι) :
    Moved hashv num ideal ⟨bkt, fun _ => ⟨none, 0, 0⟩, 0⟩ [] where
  holds := .empty
  expandMult _ _ := (if_neg (UInt32.not_lt.mpr (UInt32.le_iff_toNat_le.mpr (Nat.zero_le _)))).symm

theorem moveItem_newBuckets_self : (moveItem hashv num ideal s a).newBuckets (indexOf hashv num a) =
    ⟨some a, (s.newBuckets (indexOf hashv num a)).count + 1,
      if (s.newBuckets (indexOf hashv num a)).count + 1 > ideal then
        ((s.newBuckets (indexOf hashv num a)).count + 1) / ideal
      else (s.newBuckets (indexOf hashv num a)).expandMult⟩ := by
  simp [moveItem, indexOf]

theorem moveItem_newBuckets_of_ne {i : Nat} (h : i ≠ indexOf hashv num a) :
    (moveItem hashv num ideal s a).newBuckets i = s.newBuckets i :=
  Function.update_of_ne h ..

/-- Moving one more item. -/
theorem moveItem_moved (hs : Moved hashv num ideal s moved) (hn : moved.Nodup) (ha : a ∉ moved)
    (hlength : moved.length + 1 < 2 ^ 32) (hindex : indexOf hashv num a < num.toNat) :
    Moved hashv num ideal (moveItem hashv num ideal s a) (moved ++ [a]) := by
  refine ⟨hs.holds.push hn ha hlength hindex _, fun i hi => ?_⟩
  by_cases hia : i = indexOf hashv num a
  · subst hia
    obtain ⟨own, -, hcount, hperm⟩ := hs.holds _ hi
    have hfits : own.length ≤ moved.length := hperm.length_eq ▸ List.length_filter_le ..
    have hone : ((s.newBuckets (indexOf hashv num a)).count + 1).toNat =
        (s.newBuckets (indexOf hashv num a)).count.toNat + 1 := toNat_add_one (by omega)
    rw [moveItem_newBuckets_self, hs.expandMult _ hi]
    by_cases hideal : (s.newBuckets (indexOf hashv num a)).count + 1 > ideal
    · rw [if_pos hideal, if_pos hideal]
    · rw [if_neg hideal, if_neg hideal, if_neg]
      rw [gt_iff_lt, UInt32.lt_iff_toNat_lt] at hideal ⊢
      omega
  · rw [moveItem_newBuckets_of_ne hia]
    exact hs.expandMult i hi

/-- Moving an item writes its own links and those of a moved item. -/
theorem moveItem_bkt (hs : Moved hashv num ideal s moved) (hindex : indexOf hashv num a < num.toNat)
    {c : ι} (ha : c ≠ a) (hc : c ∉ moved) : (moveItem hashv num ideal s a).bkt c = s.bkt c := by
  obtain ⟨own, hown, -, hperm⟩ := hs.holds _ hindex
  apply pushFront_of_ne ha
  change (s.newBuckets (indexOf hashv num a)).hhHead ≠ some c
  rw [hown.head_eq, Option.or_none]
  intro he
  exact hc (List.mem_of_mem_filter (hperm.mem_iff.mp (List.mem_of_mem_head? he)))

/-- The inner loop ends and has moved the chain; other links stay as they are. -/
theorem moveChain_moved {before thh : Option ι} {fuel : Nat}
    (hs : Moved hashv num ideal s moved) (hchain : Segment s.bkt before thh none chain)
    (hn : (moved ++ chain).Nodup) (hlength : (moved ++ chain).length < 2 ^ 32)
    (hindex : ∀ c ∈ chain, indexOf hashv num c < num.toNat) (hfuel : chain.length ≤ fuel) :
    ∃ t, moveChain hashv num ideal fuel s thh = some t ∧ Moved hashv num ideal t (moved ++ chain) ∧
      ∀ c ∉ moved ++ chain, t.bkt c = s.bkt c := by
  induction chain generalizing s moved before thh fuel with
  | nil =>
    obtain rfl : thh = none := hchain
    refine ⟨s, by unfold moveChain; rfl, ?_, fun _ _ => rfl⟩
    rwa [List.append_nil]
  | cons a chain ih =>
    obtain ⟨rfl, -, hrest⟩ := hchain
    obtain ⟨hnmoved, hnchain, hdisjoint⟩ := List.nodup_append.mp hn
    have ha : a ∉ moved := fun hmem => hdisjoint a hmem a (List.mem_cons_self ..) rfl
    have hindexa := hindex a (List.mem_cons_self ..)
    have hsplit : moved ++ a :: chain = (moved ++ [a]) ++ chain := by simp
    rw [hsplit] at hn hlength ⊢
    have hone : moved.length + 1 < 2 ^ 32 := by
      rw [List.length_append, List.length_append] at hlength
      exact Nat.lt_of_le_of_lt (Nat.le_add_right ..) hlength
    have hmoved := moveItem_moved hs hnmoved ha hone hindexa
    -- the chain behind the item has not been touched
    have hkeep : Segment (moveItem hashv num ideal s a).bkt (some a) (s.bkt a).next none chain := by
      refine hrest.congr fun c hc => moveItem_bkt hs hindexa ?_ ?_
      · rintro rfl
        exact (List.nodup_cons.mp hnchain).1 hc
      · exact fun hmem => hdisjoint c hmem c (List.mem_cons_of_mem _ hc) rfl
    cases fuel with
    | zero => exact absurd hfuel (Nat.not_succ_le_zero _)
    | succ fuel =>
      obtain ⟨t, ht, hmoved', hother⟩ := ih hmoved hkeep hn hlength
        (fun c hc => hindex c (List.mem_cons_of_mem _ hc)) (Nat.le_of_succ_le_succ hfuel)
      refine ⟨t, ?_, hmoved', fun c hc => ?_⟩
      · unfold moveChain
        rw [if_pos (show hashToBkt (hashv a) num < num.toNat from hindexa)]
        exact ht
      rw [hother c hc]
      apply moveItem_bkt hs hindexa
      · rintro rfl
        exact hc (by simp)
      · exact fun hmem => hc (by simp [hmem])

/-- The outer loop ends and has moved the chains of its buckets. -/
theorem moveChains_moved {heads : Nat → Option ι} {chains : Nat → List ι} {fuel : Nat}
    (idxs : List Nat) (hs : Moved hashv num ideal s moved)
    (hchains : ∀ i ∈ idxs, IsList s.bkt (heads i) (chains i))
    (hn : (moved ++ idxs.flatMap chains).Nodup)
    (hlength : (moved ++ idxs.flatMap chains).length < 2 ^ 32)
    (hindex : ∀ i ∈ idxs, ∀ c ∈ chains i, indexOf hashv num c < num.toNat)
    (hfuel : ∀ i ∈ idxs, (chains i).length ≤ fuel) :
    ∃ t, idxs.foldlM (fun s i => moveChain hashv num ideal fuel s (heads i)) s = some t ∧
      Moved hashv num ideal t (moved ++ idxs.flatMap chains) := by
  induction idxs generalizing s moved with
  | nil =>
    refine ⟨s, rfl, ?_⟩
    rwa [List.flatMap_nil, List.append_nil]
  | cons i idxs ih =>
    rw [List.flatMap_cons, ← List.append_assoc] at hn hlength ⊢
    have hmem := List.mem_cons_self (a := i) (l := idxs)
    have hni := (List.nodup_append.mp hn).1
    have hfits : (moved ++ chains i).length < 2 ^ 32 := by
      rw [List.length_append] at hlength
      exact Nat.lt_of_le_of_lt (Nat.le_add_right ..) hlength
    obtain ⟨t, ht, hmoved, hother⟩ :=
      moveChain_moved hs (hchains i hmem) hni hfits (hindex i hmem) (hfuel i hmem)
    have hlater : ∀ j ∈ idxs, IsList t.bkt (heads j) (chains j) := by
      intro j hj
      refine (hchains j (List.mem_cons_of_mem _ hj)).congr fun c hc => hother c fun hmem => ?_
      exact (List.nodup_append.mp hn).2.2 c hmem c (List.mem_flatMap.mpr ⟨j, hj, hc⟩) rfl
    obtain ⟨u, hu, hfinal⟩ := ih hmoved hlater hn hlength
      (fun j hj => hindex j (List.mem_cons_of_mem _ hj))
      (fun j hj => hfuel j (List.mem_cons_of_mem _ hj))
    refine ⟨u, ?_, hfinal⟩
    rw [List.foldlM_cons, ht]
    exact hu

end Loops

/-! ## The whole expansion -/

/-- The table knows its items: how many there are, and where they are. -/
structure Filled (h : UTHash ι κ) (items : List ι) : Prop where
  numItems : h.tbl.numItems.toNat = items.length
  numBuckets : h.tbl.numBuckets.toNat = 2 ^ h.tbl.log2NumBuckets.toNat
  holds : InBuckets h.bkt (indexOf h.hashv h.tbl.numBuckets) h.tbl.buckets h.tbl.numBuckets.toNat
    items

variable {h : UTHash ι κ} {items : List ι}

omit [DecidableEq ι] in
/-- The items of a table can be counted. -/
theorem Filled.length_lt (hf : Filled h items) : items.length < 2 ^ 32 :=
  hf.numItems ▸ h.tbl.numItems.toNat_lt

omit [DecidableEq ι] in
/-- The chains of the buckets, one behind the other, are the items. -/
theorem Filled.exists_chains (hf : Filled h items) (hn : items.Nodup) :
    ∃ chains : Nat → List ι, (∀ i ∈ List.range h.tbl.numBuckets.toNat,
      IsList h.bkt (h.tbl.buckets i).hhHead (chains i) ∧
        (h.tbl.buckets i).count.toNat = (chains i).length ∧
        (chains i).length ≤ h.tbl.numItems.toNat) ∧
      ((List.range h.tbl.numBuckets.toNat).flatMap chains).Perm items := by
  have hindex : ∀ c ∈ items, indexOf h.hashv h.tbl.numBuckets c < h.tbl.numBuckets.toNat :=
    fun _ _ => hashToBkt_lt hf.numBuckets
  choose! chains hlist hcount hperm using hf.holds
  refine ⟨chains, fun i hi => ?_, ?_⟩
  · have hi' := List.mem_range.mp hi
    refine ⟨hlist i hi', hcount i hi', ?_⟩
    rw [hf.numItems, (hperm i hi').length_eq]
    exact List.length_filter_le ..
  · refine .trans ?_ (Chains.flatMap_filter_perm hn hindex)
    exact List.Perm.flatMap_left _ fun i hi => hperm i (List.mem_range.mp hi)

/-- An expansion below 2^31 buckets ends, and the items are in twice the buckets. -/
theorem hashExpandBuckets_filled (hf : Filled h items) (hn : items.Nodup)
    (hroom : h.tbl.numBuckets.toNat ≠ 2 ^ 31) :
    ∃ s moved, hashExpandBuckets true h = some (installBuckets h s) ∧ moved.Perm items ∧
      Moved h.hashv (h.tbl.numBuckets * 2) (nextIdealChainMaxlen h.tbl) s moved ∧
      Filled (installBuckets h s) items := by
  have hpow := (toNat_double hf.numBuckets hroom).2
  obtain ⟨chains, hchains, hmoved⟩ := hf.exists_chains hn
  have hstart : Moved h.hashv (h.tbl.numBuckets * 2) (nextIdealChainMaxlen h.tbl)
      ⟨h.bkt, fun _ => ⟨none, 0, 0⟩, 0⟩ [] := moved_start h.bkt
  obtain ⟨s, hs, hfinal⟩ := moveChains_moved (List.range h.tbl.numBuckets.toNat) hstart
    (fun i hi => (hchains i hi).1) (hmoved.nodup_iff.mpr hn) (hmoved.length_eq ▸ hf.length_lt)
    (fun _ _ _ _ => hashToBkt_lt hpow) (fun i hi => (hchains i hi).2.2)
  rw [List.nil_append] at hfinal
  refine ⟨s, _, ?_, hmoved, hfinal, hf.numItems, hpow, hfinal.holds.perm hmoved⟩
  unfold hashExpandBuckets moveBuckets
  rw [hs]
  rfl

omit [DecidableEq ι] in
/-- The outer loop ends at a bucket whose chain cannot be moved. -/
theorem moveChains_eq_none {moveOne : ExpandState ι → Nat → Option (ExpandState ι)} {i : Nat}
    {idxs : List Nat} (hi : i ∈ idxs) (hone : ∀ s, moveOne s i = none) (s : ExpandState ι) :
    idxs.foldlM moveOne s = none := by
  induction idxs generalizing s with
  | nil => cases hi
  | cons j idxs ih =>
    rw [List.foldlM_cons]
    rcases List.mem_cons.mp hi with rfl | hi
    · rw [hone s]
      rfl
    · cases hstep : moveOne s j with
      | none => rfl
      | some t => exact ih hi t

/-- An expansion of 2^31 buckets writes outside of the new array. -/
theorem hashExpandBuckets_eq_none (hf : Filled h items) (hne : items ≠ [])
    (hfull : h.tbl.numBuckets.toNat = 2 ^ 31) (malloc : Bool) :
    hashExpandBuckets malloc h = none := by
  have hdouble : h.tbl.numBuckets * 2 = 0 := by
    rw [← UInt32.toNat_inj, UInt32.toNat_mul, hfull]
    rfl
  obtain ⟨a, ha⟩ := List.exists_mem_of_ne_nil items hne
  have hindex : indexOf h.hashv h.tbl.numBuckets a < h.tbl.numBuckets.toNat :=
    hashToBkt_lt hf.numBuckets
  obtain ⟨chain, hlist, -, hperm⟩ := hf.holds _ hindex
  have hmem : a ∈ chain :=
    hperm.mem_iff.mpr (List.mem_filter.mpr ⟨ha, decide_eq_true rfl⟩)
  have hchain : ∀ s, moveChain h.hashv (h.tbl.numBuckets * 2) (nextIdealChainMaxlen h.tbl)
      h.tbl.numItems.toNat s (h.tbl.buckets (indexOf h.hashv h.tbl.numBuckets a)).hhHead =
        none := by
    intro s
    rw [hdouble, hlist.head_eq, Option.or_none]
    obtain ⟨c, chain, rfl⟩ := List.exists_cons_of_ne_nil (List.ne_nil_of_mem hmem)
    rw [List.head?_cons]
    cases h.tbl.numItems.toNat with
    | zero => rfl
    | succ fuel =>
      unfold moveChain
      exact if_neg (Nat.not_lt_zero _)
  have hloops : moveBuckets h = none :=
    moveChains_eq_none (List.mem_range.mpr hindex) hchain _
  unfold hashExpandBuckets
  rw [hloops]
  cases malloc <;> rfl

end UTHash

end Meguro
