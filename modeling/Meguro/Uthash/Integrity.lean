import Meguro.Core.Transition
import Meguro.Uthash.Expansion

/-!
# The integrity of a table

In every state that adds and deletes lead to, the elements form one list in the
order in which they were added, each is in the chain of its bucket, and the
counters are right. So the integrity check of the header never reports anything,
and no loop of the macros runs past the items of the table. An addition fails only
where it needs memory and gets none, or where the number of buckets wraps.
-/

namespace Meguro

open LinkedList Transition

/-- A call of `HASH_ADD_KEYPTR`, with what `malloc` answers if it is asked for a table or
for buckets, or of `HASH_DELETE`. -/
inductive UTHashLabel (ι κ : Type*)
  | add (keyptr : κ) (add : ι) (malloc : Bool)
  | delete (delptr : ι)

namespace UTHash

variable {ι κ : Type*} [DecidableEq ι]

/-- The table holds these elements, in this order. -/
structure Wf (hashFcn : κ → UInt32) (h : UTHash ι κ) (items : List ι) : Prop where
  nodup : items.Nodup
  app : IsList h.app h.head items
  tail : items ≠ [] → h.tbl.tail = items.getLast?
  filled : items ≠ [] → Filled h items
  hashv : ∀ a ∈ items, h.hashv a = hashFcn (h.key a)

/-- One more item in this bucket is to expand the buckets, and cannot: `malloc` has no
memory for them and the process exits, or twice 2^31 of them are none and the first
item is written outside of the array. -/
def GrowFails (malloc : Bool) (h : UTHash ι κ) (bkt : Nat) : Prop :=
  h.MustExpand bkt ((h.tbl.buckets bkt).count + 1) ∧
    (malloc = false ∨ h.tbl.numBuckets.toNat = 2 ^ 31)

instance (malloc : Bool) (h : UTHash ι κ) (bkt : Nat) : Decidable (h.GrowFails malloc bkt) :=
  inferInstanceAs (Decidable (_ ∧ _))

/-- An addition under this key does not return: there is no memory for a new table, or the
buckets of the one there is cannot be expanded. -/
def AddFails (hashFcn : κ → UInt32) (malloc : Bool) (h : UTHash ι κ) (keyptr : κ) : Prop :=
  if h.head.isNone then malloc = false
  else h.GrowFails malloc (hashToBkt (hashFcn keyptr) h.tbl.numBuckets)

instance (hashFcn : κ → UInt32) (malloc : Bool) (h : UTHash ι κ) (keyptr : κ) :
    Decidable (h.AddFails hashFcn malloc keyptr) :=
  inferInstanceAs (Decidable (ite _ _ _))

variable {hashFcn : κ → UInt32} {h : UTHash ι κ} {items xs ys : List ι} {a : ι} {malloc : Bool}
  {keyptr : κ}

omit [DecidableEq ι] in
theorem wf_empty (hnull : h.head = none) : Wf hashFcn h [] where
  nodup := List.nodup_nil
  app := hnull
  tail hne := absurd rfl hne
  filled hne := absurd rfl hne
  hashv _ ha := absurd ha List.not_mem_nil

omit [DecidableEq ι] in
theorem Wf.head_eq (hw : Wf hashFcn h items) : h.head = items.head? := by
  rw [hw.app.head_eq, Option.or_none]

omit [DecidableEq ι] in
theorem Wf.isNone_head (hw : Wf hashFcn h items) : h.head.isNone = true ↔ items = [] := by
  rw [hw.head_eq]
  cases items <;> simp

/-! ## Adding -/

/-- What `HASH_ADD_TO_BKT` leaves alone. -/
structure SameList (h h' : UTHash ι κ) : Prop where
  head : h'.head = h.head
  app : h'.app = h.app
  key : h'.key = h.key
  hashv : h'.hashv = h.hashv
  tail : h'.tbl.tail = h.tbl.tail

/-- The test is made on the counters of the bucket with the element in it. -/
theorem mustExpand_linkInBkt {bkt : Nat} :
    (linkInBkt h bkt a).MustExpand bkt ((linkInBkt h bkt a).tbl.buckets bkt).count ↔
      h.MustExpand bkt ((h.tbl.buckets bkt).count + 1) := by
  unfold MustExpand linkInBkt
  dsimp only
  rw [Function.update_self]

section AddToBkt

variable (hcount : h.tbl.numItems.toNat = items.length + 1)
  (hpow : h.tbl.numBuckets.toNat = 2 ^ h.tbl.log2NumBuckets.toNat)
  (hholds : InBuckets h.bkt (indexOf h.hashv h.tbl.numBuckets) h.tbl.buckets
    h.tbl.numBuckets.toNat items) (hn : items.Nodup) (ha : a ∉ items)
include hcount hpow hholds hn ha

/-- An element counted in the table is linked to the bucket of its hash. -/
theorem linkInBkt_filled :
    Filled (linkInBkt h (indexOf h.hashv h.tbl.numBuckets a) a) (items ++ [a]) := by
  have hlength : items.length + 1 < 2 ^ 32 := hcount ▸ h.tbl.numItems.toNat_lt
  exact ⟨by rw [List.length_append]; exact hcount, hpow,
    hholds.push hn ha hlength (hashToBkt_lt hpow) _⟩

/-- Such an element is added, unless an expansion fails. -/
theorem hashAddToBkt_filled (hgrow : ¬ h.GrowFails malloc (indexOf h.hashv h.tbl.numBuckets a)) :
    ∃ h', hashAddToBkt malloc h (indexOf h.hashv h.tbl.numBuckets a) a = some h' ∧
      Filled h' (items ++ [a]) ∧ SameList h h' := by
  have hlinked := linkInBkt_filled hcount hpow hholds hn ha
  have hn' : (items ++ [a]).Nodup := List.Nodup.append hn (List.nodup_singleton a) (by simpa)
  unfold hashAddToBkt
  dsimp only
  split
  · rename_i hmust
    have hroom := not_or.mp (not_and.mp hgrow (mustExpand_linkInBkt.mp hmust))
    obtain rfl : malloc = true := eq_true_of_ne_false hroom.1
    obtain ⟨s, moved, hs, -, -, hfilled⟩ := hashExpandBuckets_filled hlinked hn' hroom.2
    exact ⟨_, hs, hfilled, rfl, rfl, rfl, rfl, rfl⟩
  · exact ⟨_, rfl, hlinked, rfl, rfl, rfl, rfl, rfl⟩

/-- Where an expansion fails the addition does. -/
theorem hashAddToBkt_eq_none (hgrow : h.GrowFails malloc (indexOf h.hashv h.tbl.numBuckets a)) :
    hashAddToBkt malloc h (indexOf h.hashv h.tbl.numBuckets a) a = none := by
  unfold hashAddToBkt
  dsimp only
  rw [if_pos (mustExpand_linkInBkt.mpr hgrow.1)]
  rcases hgrow.2 with rfl | hfull
  · rfl
  · exact hashExpandBuckets_eq_none (linkInBkt_filled hcount hpow hholds hn ha) (by simp) hfull _

end AddToBkt

/-- The application-order list after `hashAppend`. -/
theorem isList_hashAppend (hw : Wf hashFcn h items) (ha : a ∉ items) (keyptr : κ) :
    IsList (hashAppend hashFcn h keyptr a).app (hashAppend hashFcn h keyptr a).head
      (items ++ [a]) := by
  unfold hashAppend
  dsimp only
  by_cases hempty : items = []
  · subst hempty
    rw [if_pos (hw.isNone_head.mpr rfl), if_pos (hw.isNone_head.mpr rfl)]
    refine ⟨rfl, ?_, ?_⟩ <;> rw [Function.update_self]
    rfl
  · have hsome := mt hw.isNone_head.mp hempty
    rw [if_neg hsome, if_neg hsome, hw.tail hempty]
    exact hw.app.pushBack hw.nodup hempty ha

/-- The buckets after `hashAppend` hold the elements there were. -/
theorem holds_hashAppend (hw : Wf hashFcn h items) (ha : a ∉ items)
    (hlength : items.length + 1 < 2 ^ 32) (keyptr : κ) :
    let h' := hashAppend hashFcn h keyptr a
    h'.tbl.numItems.toNat = items.length + 1 ∧
      h'.tbl.numBuckets.toNat = 2 ^ h'.tbl.log2NumBuckets.toNat ∧
      InBuckets h'.bkt (indexOf h'.hashv h'.tbl.numBuckets) h'.tbl.buckets
        h'.tbl.numBuckets.toNat items := by
  dsimp only
  unfold hashAppend
  dsimp only
  by_cases hempty : items = []
  · subst hempty
    rw [if_pos (hw.isNone_head.mpr rfl)]
    exact ⟨rfl, rfl, .empty⟩
  · have hfilled := hw.filled hempty
    rw [if_neg (mt hw.isNone_head.mp hempty)]
    refine ⟨?_, hfilled.numBuckets, hfilled.holds.congr ?_⟩
    · rw [← hfilled.numItems] at hlength ⊢
      exact toNat_add_one hlength
    · intro c hc
      unfold indexOf
      rw [Function.update_of_ne (ne_of_mem_of_not_mem hc ha)]

theorem indexOf_hashAppend (hashFcn : κ → UInt32) (h : UTHash ι κ) (keyptr : κ) (a : ι) :
    indexOf (hashAppend hashFcn h keyptr a).hashv (hashAppend hashFcn h keyptr a).tbl.numBuckets a =
      hashToBkt (hashFcn keyptr) (hashAppend hashFcn h keyptr a).tbl.numBuckets := by
  unfold indexOf
  rw [show (hashAppend hashFcn h keyptr a).hashv a = hashFcn keyptr from Function.update_self ..]

/-- A new table does not expand, and another one has the counters it had. -/
theorem growFails_hashAppend :
    (hashAppend hashFcn h keyptr a).GrowFails malloc
        (hashToBkt (hashFcn keyptr) (hashAppend hashFcn h keyptr a).tbl.numBuckets) ↔
      ¬ h.head.isNone = true ∧ h.AddFails hashFcn malloc keyptr := by
  unfold AddFails GrowFails MustExpand hashAppend
  dsimp only
  cases h.head.isNone with
  | true =>
    have hnew : ¬ (0 + 1 : UInt32) ≥ (0 + 1) * hashBktCapacityThresh := by decide
    exact iff_of_false (fun hgrow => hnew hgrow.1.1) fun hgrow => hgrow.1 rfl
  | false => exact (and_iff_right Bool.false_ne_true).symm

section AddKeyptr

variable (hw : Wf hashFcn h items) (ha : a ∉ items) (hlength : items.length + 1 < 2 ^ 32)
include hw ha hlength

/-- Adding an element that is not in the table ends, with the element behind the others,
unless it fails for want of memory or buckets. -/
theorem hashAddKeyptr_wf (hserved : ¬ h.AddFails hashFcn malloc keyptr) :
    ∃ h', hashAddKeyptr hashFcn malloc h keyptr a = some h' ∧ Wf hashFcn h' (items ++ [a]) ∧
      h'.key = Function.update h.key a keyptr := by
  have happ := isList_hashAppend hw ha keyptr
  obtain ⟨hcount, hpow, hholds⟩ := holds_hashAppend hw ha hlength keyptr
  have hindex := indexOf_hashAppend hashFcn h keyptr a
  have hgrow : ¬ (hashAppend hashFcn h keyptr a).GrowFails malloc
      (hashToBkt (hashFcn keyptr) (hashAppend hashFcn h keyptr a).tbl.numBuckets) :=
    fun hgrow => hserved (growFails_hashAppend.mp hgrow).2
  rw [← hindex] at hgrow
  obtain ⟨h', hh', hfilled, hsame⟩ := hashAddToBkt_filled hcount hpow hholds hw.nodup ha hgrow
  have hmemory : ¬ (h.head.isNone = true ∧ malloc = false) := by
    rintro ⟨hnone, hmalloc⟩
    unfold AddFails at hserved
    rw [if_pos hnone] at hserved
    exact hserved hmalloc
  rw [hindex] at hh'
  refine ⟨h', (if_neg hmemory).trans hh', ⟨?_, ?_, fun _ => ?_, fun _ => hfilled, fun c hc => ?_⟩,
    hsame.key⟩
  · exact List.Nodup.append hw.nodup (List.nodup_singleton a) (by simpa)
  · rw [hsame.app, hsame.head]
    exact happ
  · rw [hsame.tail, List.getLast?_concat]
    unfold hashAppend
    dsimp only
    split <;> rfl
  · rw [hsame.hashv, hsame.key]
    change Function.update h.hashv a (hashFcn keyptr) c =
      hashFcn (Function.update h.key a keyptr c)
    by_cases hca : c = a
    · rw [hca, Function.update_self, Function.update_self]
    · rw [Function.update_of_ne hca, Function.update_of_ne hca]
      refine hw.hashv c ?_
      simpa [hca] using hc

/-- An addition that fails for want of memory or buckets does not return. -/
theorem hashAddKeyptr_eq_none (hfail : h.AddFails hashFcn malloc keyptr) :
    hashAddKeyptr hashFcn malloc h keyptr a = none := by
  unfold hashAddKeyptr
  by_cases hnone : h.head.isNone = true
  · unfold AddFails at hfail
    rw [if_pos hnone] at hfail
    exact if_pos ⟨hnone, hfail⟩
  · obtain ⟨hcount, hpow, hholds⟩ := holds_hashAppend hw ha hlength keyptr
    have hindex := indexOf_hashAppend hashFcn h keyptr a
    have hgrow : (hashAppend hashFcn h keyptr a).GrowFails malloc
        (hashToBkt (hashFcn keyptr) (hashAppend hashFcn h keyptr a).tbl.numBuckets) :=
      growFails_hashAppend.mpr ⟨hnone, hfail⟩
    rw [← hindex] at hgrow
    have hadd := hashAddToBkt_eq_none hcount hpow hholds hw.nodup ha hgrow
    rw [hindex] at hadd
    rw [if_neg fun h => hnone h.1]
    exact hadd

/-- Every addition ends with the element in the table, or it fails. -/
theorem hashAddKeyptr_eq_none_iff :
    hashAddKeyptr hashFcn malloc h keyptr a = none ↔ h.AddFails hashFcn malloc keyptr := by
  refine ⟨fun hnone => ?_, hashAddKeyptr_eq_none hw ha hlength⟩
  by_contra hserved
  obtain ⟨h', hh', -⟩ := hashAddKeyptr_wf hw ha hlength hserved
  rw [hnone] at hh'
  cases hh'

/-- What an addition that returns leaves. -/
theorem hashAddKeyptr_spec {h' : UTHash ι κ}
    (hadd : hashAddKeyptr hashFcn malloc h keyptr a = some h') :
    Wf hashFcn h' (items ++ [a]) ∧ h'.key = Function.update h.key a keyptr := by
  have hserved : ¬ h.AddFails hashFcn malloc keyptr := by
    intro hfail
    rw [hashAddKeyptr_eq_none hw ha hlength hfail] at hadd
    cases hadd
  obtain ⟨u, hu, hwf⟩ := hashAddKeyptr_wf hw ha hlength hserved
  rw [hadd] at hu
  cases hu
  exact hwf

end AddKeyptr

/-! ## Deleting -/

omit [DecidableEq ι] in
/-- A list of one element is the only one whose element has no neighbours. -/
theorem links_eq_none_iff (hw : Wf hashFcn h (xs ++ a :: ys)) :
    (h.app a).prev = none ∧ (h.app a).next = none ↔ xs ++ ys = [] := by
  rw [hw.app.links]
  simp

omit [DecidableEq ι] in
/-- The head after a delete. -/
theorem head_hashDelete (hw : Wf hashFcn h (xs ++ a :: ys)) :
    (if (h.app a).prev = none then (h.app a).next else h.head) = (xs ++ ys).head? := by
  rw [hw.app.links, hw.head_eq]
  cases xs <;> simp

/-- The tail after a delete. -/
theorem tail_hashDelete (hw : Wf hashFcn h (xs ++ a :: ys)) (hne : xs ++ ys ≠ []) :
    (if h.tbl.tail = some a then (h.app a).prev else h.tbl.tail) = (xs ++ ys).getLast? := by
  rw [hw.app.links, hw.tail (by simp)]
  cases ys using List.reverseRecOn with
  | nil => simp
  | append_singleton ys y =>
    have hy : y ≠ a := by
      rintro rfl
      have hn := (List.nodup_append.mp hw.nodup).2.1
      exact (List.nodup_cons.mp hn).1 (by simp)
    have hlast : (xs ++ a :: (ys ++ [y])).getLast? = some y := by
      rw [← List.cons_append, ← List.append_assoc, List.getLast?_concat]
    rw [hlast, ← List.append_assoc, List.getLast?_concat, if_neg]
    exact fun he => hy (Option.some.inj he)

/-- Deleting an element of the table leaves the table without it. -/
theorem hashDelete_wf (hw : Wf hashFcn h (xs ++ a :: ys)) :
    Wf hashFcn (hashDelete h a) (xs ++ ys) ∧ (hashDelete h a).key = h.key := by
  unfold hashDelete
  split
  · rename_i hlinks
    rw [(links_eq_none_iff hw).mp hlinks]
    exact ⟨wf_empty rfl, rfl⟩
  · rename_i hlinks
    have hne := mt (links_eq_none_iff hw).mpr hlinks
    have hfilled := hw.filled (by simp)
    have hhead := head_hashDelete hw
    have htail := tail_hashDelete hw hne
    refine ⟨⟨?_, ?_, fun _ => htail, fun _ => ⟨?_, hfilled.numBuckets, ?_⟩, fun c hc => ?_⟩, rfl⟩
    · exact hw.nodup.sublist ((List.Sublist.refl xs).append (List.sublist_cons_self a ys))
    · change IsList (unlink h.app a) (if (h.app a).prev = none then (h.app a).next else h.head) _
      rw [hhead]
      exact hw.app.unlink hw.nodup
    · have hpos : 0 < h.tbl.numItems.toNat :=
        hfilled.numItems ▸ List.length_pos_of_ne_nil (by simp)
      change (h.tbl.numItems - 1).toNat = _
      rw [toNat_sub_one hpos, hfilled.numItems]
      simp
    · exact hfilled.holds.unlink hw.nodup (hashToBkt_lt hfilled.numBuckets)
    · refine hw.hashv c ?_
      rcases List.mem_append.mp hc with hc | hc
      · exact List.mem_append_left _ hc
      · exact List.mem_append_right _ (List.mem_cons_of_mem _ hc)

/-- The same for an element wherever it stands. -/
theorem hashDelete_wf_erase (hw : Wf hashFcn h items) (ha : a ∈ items) :
    Wf hashFcn (hashDelete h a) (items.erase a) ∧ (hashDelete h a).key = h.key := by
  obtain ⟨xs, ys, rfl⟩ := List.append_of_mem ha
  have hxs : a ∉ xs := fun hmem =>
    (List.nodup_append.mp hw.nodup).2.2 a hmem a (List.mem_cons_self ..) rfl
  rw [List.erase_append_right _ hxs, List.erase_cons_head]
  exact hashDelete_wf hw

/-! ## Runs -/

/-- The calls a program may make, with the elements that are in the table: an
element that is in the table is not added again, there are fewer than 2^32 of them, and
only such an element is deleted. -/
def step (hashFcn : κ → UInt32) (s : UTHash ι κ × List ι) :
    UTHashLabel ι κ → Option (UTHash ι κ × List ι)
  | .add keyptr add malloc =>
    if add ∉ s.2 ∧ s.2.length + 1 < 2 ^ 32 then
      (hashAddKeyptr hashFcn malloc s.1 keyptr add).map (·, s.2 ++ [add])
    else none
  | .delete delptr =>
    if delptr ∈ s.2 then some (hashDelete s.1 delptr, s.2.erase delptr) else none

variable {s t : UTHash ι κ × List ι} {l : UTHashLabel ι κ} {ls : List (UTHashLabel ι κ)}

theorem step_wf (hw : Wf hashFcn s.1 s.2) (h : step hashFcn s l = some t) : Wf hashFcn t.1 t.2 := by
  cases l with
  | add keyptr a malloc =>
    obtain ⟨⟨ha, hlength⟩, hadd⟩ := Option.ite_none_right_eq_some.mp h
    obtain ⟨h', hh', rfl⟩ := Option.map_eq_some_iff.mp hadd
    exact (hashAddKeyptr_spec hw ha hlength hh').1
  | delete a =>
    obtain ⟨ha, hdelete⟩ := Option.ite_none_right_eq_some.mp h
    cases hdelete
    exact (hashDelete_wf_erase hw ha).1

/-- Every table that adds and deletes lead to, from no table, is well formed. -/
theorem run_wf (hnull : h.head = none) (hrun : run (step hashFcn) (h, []) ls = some s) :
    Wf hashFcn s.1 s.2 := by
  have hstart : Wf hashFcn (h, ([] : List ι)).1 (h, ([] : List ι)).2 := wf_empty hnull
  exact run_invariant (fun hw hstep => step_wf hw hstep) hstart hrun

/-! ## The integrity check -/

/-- A traversal of a list reports nothing and counts its cells. -/
theorem fsckChain_segment {links : ι → Links ι} {oops : HashOops} {prev thh : Option ι}
    {chain : List ι} {fuel : Nat} {count : UInt32} (hs : Segment links prev thh none chain)
    (hfuel : chain.length ≤ fuel) :
    fsckChain links oops fuel prev thh count = .ok (count + UInt32.ofNat chain.length) := by
  induction chain generalizing prev thh fuel count with
  | nil =>
    obtain rfl : thh = none := hs
    unfold fsckChain
    exact congrArg Except.ok (UInt32.add_zero count).symm
  | cons a chain ih =>
    obtain ⟨rfl, hprev, hrest⟩ := hs
    cases fuel with
    | zero => exact absurd hfuel (Nat.not_succ_le_zero _)
    | succ fuel =>
      unfold fsckChain
      rw [if_pos hprev, ih hrest (Nat.le_of_succ_le_succ hfuel), List.length_cons,
        UInt32.ofNat_add, UInt32.add_comm (UInt32.ofNat chain.length), ← UInt32.add_assoc]
      rfl

/-- The traversals of the buckets report nothing and count the cells of their chains. -/
theorem fsckBuckets {buckets : Nat → UTHashBucket ι} {bkt : ι → Links ι} {chains : Nat → List ι}
    {fuel : Nat} (idxs : List Nat) (count : UInt32)
    (hlist : ∀ i ∈ idxs, IsList bkt (buckets i).hhHead (chains i))
    (hcount : ∀ i ∈ idxs, (buckets i).count.toNat = (chains i).length)
    (hfuel : ∀ i ∈ idxs, (chains i).length ≤ fuel) :
    idxs.foldlM (fun count i => do
      let bktCount ← fsckChain bkt .invalidHhPrev fuel none (buckets i).hhHead 0
      if (buckets i).count = bktCount then Except.ok (count + bktCount)
      else .error HashOops.invalidBucketCount) count =
      .ok (count + UInt32.ofNat (idxs.flatMap chains).length) := by
  induction idxs generalizing count with
  | nil => exact congrArg Except.ok (UInt32.add_zero count).symm
  | cons i idxs ih =>
    have hmem := List.mem_cons_self (a := i) (l := idxs)
    have hown : (buckets i).count = UInt32.ofNat (chains i).length := by
      rw [← hcount i hmem, UInt32.ofNat_toNat]
    rw [List.foldlM_cons, fsckChain_segment (hlist i hmem) (hfuel i hmem), UInt32.zero_add]
    change (if (buckets i).count = UInt32.ofNat (chains i).length then _ else _ :
      Except HashOops UInt32) >>= _ = _
    rw [if_pos hown]
    change idxs.foldlM _ (count + UInt32.ofNat (chains i).length) = _
    rw [ih _ (fun j hj => hlist j (List.mem_cons_of_mem _ hj))
      (fun j hj => hcount j (List.mem_cons_of_mem _ hj))
      (fun j hj => hfuel j (List.mem_cons_of_mem _ hj)), List.flatMap_cons, List.length_append,
      UInt32.ofNat_add, UInt32.add_assoc]

/-- The check finds nothing in a well-formed table. -/
theorem hashFsck_wf (hw : Wf hashFcn h items) : hashFsck h = .ok () := by
  unfold hashFsck
  by_cases hempty : items = []
  · rw [if_pos (hw.isNone_head.mpr hempty)]
  rw [if_neg (mt hw.isNone_head.mp hempty)]
  have hfilled := hw.filled hempty
  obtain ⟨chains, hchains, hperm⟩ := hfilled.exists_chains hw.nodup
  rw [fsckBuckets _ 0 (fun i hi => (hchains i hi).1) (fun i hi => (hchains i hi).2.1)
    (fun i hi => (hchains i hi).2.2), hperm.length_eq, ← hfilled.numItems, UInt32.zero_add,
    UInt32.ofNat_toNat]
  change (if h.tbl.numItems = h.tbl.numItems then _ else _ : Except HashOops Unit) = _
  rw [if_pos rfl, fsckChain_segment hw.app (Nat.le_of_eq hfilled.numItems.symm), UInt32.zero_add,
    ← hfilled.numItems, UInt32.ofNat_toNat]
  exact if_pos rfl

/-- After every sequence of adds and deletes the check finds nothing, and the next add
ends, its expansion included, unless it fails for want of memory or of a number for
twice 2^31 buckets. -/
theorem integrity_of_run (hnull : h.head = none) (hrun : run (step hashFcn) (h, []) ls = some s) :
    hashFsck s.1 = .ok () ∧ ∀ keyptr a malloc, a ∉ s.2 → s.2.length + 1 < 2 ^ 32 →
      (step hashFcn s (.add keyptr a malloc) = none ↔ s.1.AddFails hashFcn malloc keyptr) := by
  have hw := run_wf hnull hrun
  refine ⟨hashFsck_wf hw, fun keyptr a malloc ha hlength => ?_⟩
  rw [← hashAddKeyptr_eq_none_iff hw ha hlength]
  unfold step
  dsimp only
  rw [if_pos ⟨ha, hlength⟩, Option.map_eq_none_iff]

end UTHash

/-! ## Colliding keys -/

/-- No table, in a memory of elements without keys. -/
def noTable : UTHash Nat Nat where
  head := none
  tbl := hashMakeTable 0
  app _ := ⟨none, none⟩
  bkt _ := ⟨none, none⟩
  key _ := 0
  hashv _ := 0

/-- Eleven keys in one bucket, which expand the table once, and two deletes. -/
def collidingCalls : List (UTHashLabel Nat Nat) :=
  (List.range 11).map (fun i => .add (10 * i) i true) ++ [.delete 0, .delete 7]

theorem collidingCalls_isSome :
    (run (UTHash.step fun _ : Nat => 5) (noTable, []) collidingCalls).isSome = true := by
  decide +kernel

/-- The table they leave, and its elements. -/
def collidingTable : UTHash Nat Nat × List Nat :=
  (run (UTHash.step fun _ : Nat => 5) (noTable, []) collidingCalls).get collidingCalls_isSome

theorem integrity_collidingTable :
    UTHash.hashFsck collidingTable.1 = .ok () ∧
      ∀ keyptr a malloc, a ∉ collidingTable.2 → collidingTable.2.length + 1 < 2 ^ 32 →
        (UTHash.step (fun _ : Nat => 5) collidingTable (.add keyptr a malloc) = none ↔
          collidingTable.1.AddFails (fun _ : Nat => 5) malloc keyptr) :=
  UTHash.integrity_of_run rfl (Option.some_get _).symm

end Meguro
