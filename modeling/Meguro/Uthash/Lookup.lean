import Meguro.Uthash.Integrity

/-!
# What a table holds

A table behaves like a list of elements under their keys, in the order in which
they were added: `HASH_FIND` returns an element of its key if there is one,
whatever the hash function and however often the buckets were expanded, the
`next` links lead through the elements in this order, and `HASH_COUNT` is their
number.
-/

namespace Meguro

open LinkedList Transition

/-- The elements in the table after these calls, in order, with their keys. -/
def addedElements {ι κ : Type*} [DecidableEq ι] (ls : List (UTHashLabel ι κ)) : List (ι × κ) :=
  ls.foldl (fun es l => match l with
    | .add keyptr add _ => es ++ [(add, keyptr)]
    | .delete delptr => es.eraseP (·.1 = delptr)) []

/-- The calls leave a table that agrees with a list of elements and keys. -/
structure Agrees {ι κ : Type*} [DecidableEq ι] [DecidableEq κ] (hashFcn : κ → UInt32)
    (h : UTHash ι κ) (es : List (ι × κ)) : Prop where
  /-- A search ends; it fails exactly when no element has the key. -/
  find : ∀ keyptr, ∃ out, UTHash.hashFind hashFcn h keyptr = some out ∧
    (out = none ↔ ∀ e ∈ es, e.2 ≠ keyptr)
  /-- What a search finds is an element of the key. -/
  found : ∀ keyptr a, UTHash.hashFind hashFcn h keyptr = some (some a) → (a, keyptr) ∈ es
  /-- Walking from the head along `next` meets the elements in this order. -/
  order : IsList h.app h.head (es.map Prod.fst)
  count : h.hashCount.toNat = es.length

namespace UTHash

variable {ι κ : Type*} [DecidableEq ι] {hashFcn : κ → UInt32} {h : UTHash ι κ} {items : List ι}
  {s t : UTHash ι κ × List ι} {ls : List (UTHashLabel ι κ)}

/-! ## Searching -/

omit [DecidableEq ι] in
/-- The loop over a chain ends with the first element of the key. -/
theorem hashFindInBkt_segment [DecidableEq κ] {keyptr : κ} {before out : Option ι}
    {chain : List ι} {fuel : Nat} (hs : Segment h.bkt before out none chain)
    (hfuel : chain.length ≤ fuel) :
    hashFindInBkt h keyptr fuel out = some (chain.find? (h.key · = keyptr)) := by
  induction chain generalizing before out fuel with
  | nil =>
    obtain rfl : out = none := hs
    unfold hashFindInBkt
    rfl
  | cons a chain ih =>
    obtain ⟨rfl, -, hrest⟩ := hs
    cases fuel with
    | zero => exact absurd hfuel (Nat.not_succ_le_zero _)
    | succ fuel =>
      unfold hashFindInBkt
      by_cases hkey : h.key a = keyptr
      · rw [if_pos hkey, List.find?_cons_of_pos (by simpa using hkey)]
      · rw [if_neg hkey, List.find?_cons_of_neg (by simpa using hkey)]
        exact ih hrest (Nat.le_of_succ_le_succ hfuel)

omit [DecidableEq ι] in
/-- In a well-formed table a search ends, and finds an element of its key if there is one. -/
theorem hashFind_wf [DecidableEq κ] (hw : Wf hashFcn h items) (keyptr : κ) :
    ∃ out, hashFind hashFcn h keyptr = some out ∧
      (out = none ↔ ∀ a ∈ items, h.key a ≠ keyptr) ∧
      ∀ a, out = some a → a ∈ items ∧ h.key a = keyptr := by
  by_cases hempty : items = []
  · subst hempty
    have hnone : h.head = none := hw.head_eq
    refine ⟨none, ?_, by simp, nofun⟩
    unfold hashFind
    rw [hnone]
  have hfilled := hw.filled hempty
  obtain ⟨chain, hlist, -, hperm⟩ :=
    hfilled.holds (hashToBkt (hashFcn keyptr) h.tbl.numBuckets) (hashToBkt_lt hfilled.numBuckets)
  have hlength : chain.length ≤ h.tbl.numItems.toNat := by
    rw [hfilled.numItems, hperm.length_eq]
    exact List.length_filter_le ..
  have hmem : ∀ a, a ∈ chain ∧ h.key a = keyptr ↔ a ∈ items ∧ h.key a = keyptr := by
    intro a
    rw [hperm.mem_iff, List.mem_filter, decide_eq_true_eq]
    constructor
    · rintro ⟨⟨ha, -⟩, hkey⟩
      exact ⟨ha, hkey⟩
    · rintro ⟨ha, hkey⟩
      refine ⟨⟨ha, ?_⟩, hkey⟩
      rw [indexOf, hw.hashv a ha, hkey]
  refine ⟨chain.find? (h.key · = keyptr), ?_, ?_, fun a ha => ?_⟩
  · obtain ⟨a, items, rfl⟩ := List.exists_cons_of_ne_nil hempty
    unfold hashFind
    rw [hw.head_eq]
    exact hashFindInBkt_segment hlist hlength
  · rw [List.find?_eq_none]
    constructor
    · intro hnone a ha hkey
      exact hnone a ((hmem a).mpr ⟨ha, hkey⟩).1 (by simpa using hkey)
    · intro hnone a ha hkey
      have hkey' : h.key a = keyptr := by simpa using hkey
      exact hnone a ((hmem a).mp ⟨ha, hkey'⟩).1 hkey'
  · have hkey : h.key a = keyptr := by simpa using List.find?_some ha
    exact (hmem a).mp ⟨List.mem_of_find?_eq_some ha, hkey⟩

omit [DecidableEq ι] in
theorem hashCount_wf (hw : Wf hashFcn h items) : (hashCount h).toNat = items.length := by
  unfold hashCount
  rw [hw.head_eq]
  cases items with
  | nil => rfl
  | cons a items => exact (hw.filled (List.cons_ne_nil a items)).numItems

/-! ## Runs -/

theorem addedElements_snoc (ls : List (UTHashLabel ι κ)) (l : UTHashLabel ι κ) :
    addedElements (ls ++ [l]) = match l with
      | .add keyptr add _ => addedElements ls ++ [(add, keyptr)]
      | .delete delptr => (addedElements ls).eraseP (·.1 = delptr) := by
  rw [addedElements, List.foldl_append]
  rfl

omit [DecidableEq ι] in
/-- Erasing an element from a list with keys. -/
theorem map_erase [DecidableEq ι] (key : ι → κ) (items : List ι) (a : ι) :
    (items.erase a).map (fun c => (c, key c)) =
      (items.map fun c => (c, key c)).eraseP (·.1 = a) := by
  induction items with
  | nil => rfl
  | cons b items ih =>
    by_cases hb : b = a
    · subst hb
      simp
    · rw [List.erase_cons_tail (by simpa using hb), List.map_cons, List.map_cons,
        List.eraseP_cons_of_neg (by simpa using hb), ih]

/-- The elements in the table, with the keys in the memory, are those of the calls. -/
theorem run_addedElements (hnull : h.head = none) (hrun : run (step hashFcn) (h, []) ls = some s) :
    s.2.map (fun a => (a, s.1.key a)) = addedElements ls := by
  refine (run_history (I := fun ls s => Wf hashFcn s.1 s.2 ∧
    s.2.map (fun a => (a, s.1.key a)) = addedElements ls) ⟨wf_empty hnull, rfl⟩ ?_ hrun).2
  rintro past t l u ⟨hw, ht⟩ hstep
  refine ⟨step_wf hw hstep, ?_⟩
  rw [addedElements_snoc]
  cases l with
  | add keyptr a malloc =>
    obtain ⟨⟨ha, hlength⟩, hadd⟩ := Option.ite_none_right_eq_some.mp hstep
    obtain ⟨h', hh', rfl⟩ := Option.map_eq_some_iff.mp hadd
    have hkey := (hashAddKeyptr_spec hw ha hlength hh').2
    dsimp only
    rw [List.map_append, hkey, ← ht]
    congr 1
    · apply List.map_congr_left
      intro c hc
      rw [Function.update_of_ne (ne_of_mem_of_not_mem hc ha)]
    · rw [List.map_singleton, Function.update_self]
  | delete a =>
    obtain ⟨ha, hdelete⟩ := Option.ite_none_right_eq_some.mp hstep
    cases hdelete
    dsimp only
    rw [(hashDelete_wf_erase hw ha).2, map_erase, ht]

/-- After every sequence of adds and deletes the table agrees with the list of
the elements that were added and not deleted, in the order of the adds. -/
theorem agrees_of_run [DecidableEq κ] (hnull : h.head = none)
    (hrun : run (step hashFcn) (h, []) ls = some s) : Agrees hashFcn s.1 (addedElements ls) := by
  have hw := run_wf hnull hrun
  rw [← run_addedElements hnull hrun]
  refine ⟨fun keyptr => ?_, fun keyptr a hfound => ?_, ?_, ?_⟩
  · obtain ⟨out, hout, hnone, -⟩ := hashFind_wf hw keyptr
    refine ⟨out, hout, hnone.trans ?_⟩
    simp
  · obtain ⟨out, hout, -, hsome⟩ := hashFind_wf hw keyptr
    rw [hout] at hfound
    obtain ⟨ha, hkey⟩ := hsome a (Option.some.inj hfound)
    exact List.mem_map.mpr ⟨a, ha, by rw [hkey]⟩
  · rw [List.map_map]
    exact (List.map_id _).symm ▸ hw.app
  · rw [List.length_map]
    exact hashCount_wf hw

theorem agrees_collidingTable :
    Agrees (fun _ : Nat => 5) collidingTable.1 (addedElements collidingCalls) :=
  agrees_of_run rfl (Option.some_get _).symm

end UTHash

end Meguro
