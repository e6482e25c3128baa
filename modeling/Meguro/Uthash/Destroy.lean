import Meguro.Uthash.Lookup

/-!
# Taking a table apart

The destructors of the classes delete the first element and free it until no
element is left. A freed element may hold anything afterwards, and the loop still
frees every element once, in the order of the adds: no delete reads or writes
through a link into an element that has been freed.
-/

namespace Meguro

open LinkedList Transition

namespace UTHash

variable {ι κ : Type*} [DecidableEq ι]

/-- What a freed element holds instead of its hash handle. -/
structure Junk (κ ι : Type*) where
  app : Links ι
  bkt : Links ι
  key : κ
  hashv : UInt32

/-- `free` of an element: its memory holds this from now on. -/
def freeElem (h : UTHash ι κ) (elem : ι) (junk : Junk κ ι) : UTHash ι κ :=
  { h with
    app := Function.update h.app elem junk.app
    bkt := Function.update h.bkt elem junk.bkt
    key := Function.update h.key elem junk.key
    hashv := Function.update h.hashv elem junk.hashv }

/-- The loop of `~ShadowKeyMap` and `~Dictionary`: the elements it frees. -/
def destroy (junk : ι → Junk κ ι) : Nat → UTHash ι κ → Option (List ι)
  | fuel, h =>
    match h.head, fuel with
    | none, _ => some []
    | some _, 0 => none
    | some elem, fuel + 1 =>
      (destroy junk fuel ((hashDelete h elem).freeElem elem (junk elem))).map (elem :: ·)

variable {hashFcn : κ → UInt32} {h : UTHash ι κ} {items : List ι} {a : ι}

/-- Nothing in a table depends on the memory of an element that is not in it. -/
theorem Wf.freeElem (hw : Wf hashFcn h items) (ha : a ∉ items) (junk : Junk κ ι) :
    Wf hashFcn (h.freeElem a junk) items := by
  have hne : ∀ c ∈ items, c ≠ a := fun c hc => ne_of_mem_of_not_mem hc ha
  have hkey : ∀ c ∈ items, (h.freeElem a junk).key c = h.key c := fun c hc =>
    Function.update_of_ne (hne c hc) ..
  have hhashv : ∀ c ∈ items, (h.freeElem a junk).hashv c = h.hashv c := fun c hc =>
    Function.update_of_ne (hne c hc) ..
  refine ⟨hw.nodup, ?_, hw.tail, fun hnil => ?_, fun c hc => ?_⟩
  · exact hw.app.congr fun c hc => Function.update_of_ne (hne c hc) ..
  · obtain ⟨hnum, hpow, hholds⟩ := hw.filled hnil
    refine ⟨hnum, hpow, InBuckets.congr ?_ fun c hc => congrArg (hashToBkt · _) (hhashv c hc)⟩
    intro i hi
    obtain ⟨chain, hlist, hcount, hperm⟩ := hholds i hi
    refine ⟨chain, hlist.congr fun c hc => ?_, hcount, hperm⟩
    exact Function.update_of_ne (hne c (List.mem_of_mem_filter (hperm.mem_iff.mp hc))) ..
  · rw [hkey c hc, hhashv c hc]
    exact hw.hashv c hc

/-- The loop frees the elements of a well-formed table. -/
theorem destroy_wf (junk : ι → Junk κ ι) (hw : Wf hashFcn h items) :
    destroy junk items.length h = some items := by
  induction items generalizing h with
  | nil =>
    have hnull : h.head = none := hw.head_eq
    unfold destroy
    rw [hnull]
  | cons a items ih =>
    have hhead : h.head = some a := hw.head_eq
    have hsplit : Wf hashFcn h ([] ++ a :: items) := hw
    have hrest : Wf hashFcn (hashDelete h a) items := (hashDelete_wf hsplit).1
    have ha : a ∉ items := (List.nodup_cons.mp hw.nodup).1
    unfold destroy
    rw [hhead, List.length_cons]
    dsimp only
    rw [ih (hrest.freeElem ha (junk a))]
    rfl

/-- After every sequence of adds and deletes, and whatever freed memory holds,
the destructor ends, having freed every element of the table exactly once. -/
theorem destroy_of_run {s : UTHash ι κ × List ι} {ls : List (UTHashLabel ι κ)}
    (junk : ι → Junk κ ι) (hnull : h.head = none)
    (hrun : run (step hashFcn) (h, []) ls = some s) :
    destroy junk s.1.hashCount.toNat s.1 = some s.2 ∧ s.2.Nodup := by
  have hw := run_wf hnull hrun
  rw [hashCount_wf hw]
  exact ⟨destroy_wf junk hw, hw.nodup⟩

theorem destroy_collidingTable :
    destroy (fun _ => ⟨⟨some 3, some 5⟩, ⟨some 9, none⟩, 0, 5⟩) collidingTable.1.hashCount.toNat
      collidingTable.1 = some collidingTable.2 ∧ collidingTable.2.Nodup :=
  destroy_of_run _ rfl (Option.some_get _).symm

end UTHash

end Meguro
