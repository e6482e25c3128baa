import Mathlib.Data.List.Nodup
import Mathlib.Logic.Function.Basic

/-!
# Doubly linked lists in a memory

A memory gives every cell its two links. A segment is a stretch of cells each of
which points to its neighbours; a list is a segment between two null pointers.
The operations assign links one after the other, as pointer code does, and each
has a rule that says which list it leaves and which cells it does not touch.
-/

namespace LinkedList

variable {ι : Type*} [DecidableEq ι]

/-- The links of a cell. -/
@[ext] structure Links (ι : Type*) where
  prev : Option ι
  next : Option ι
  deriving DecidableEq

/-- The cells from `head` up to `after`, the first of them behind `before`. -/
def Segment (m : ι → Links ι) : (before head after : Option ι) → List ι → Prop
  | _, head, after, [] => head = after
  | before, head, after, a :: l =>
    head = some a ∧ (m a).prev = before ∧ Segment m (some a) (m a).next after l

/-- A whole list, from its first cell to a null pointer. -/
def IsList (m : ι → Links ι) (head : Option ι) (l : List ι) : Prop := Segment m none head none l

/-- Write the `next` link of the cell a pointer points to, if any. -/
def setNext (m : ι → Links ι) (p next : Option ι) : ι → Links ι :=
  match p with
  | some a => Function.update m a { m a with next }
  | none => m

/-- Write the `prev` link of the cell a pointer points to, if any. -/
def setPrev (m : ι → Links ι) (p prev : Option ι) : ι → Links ι :=
  match p with
  | some a => Function.update m a { m a with prev }
  | none => m

/-- Link a cell in front of the first one. -/
def pushFront (m : ι → Links ι) (head : Option ι) (a : ι) : ι → Links ι :=
  setPrev (Function.update m a ⟨none, head⟩) head (some a)

/-- Link a cell behind the last one. -/
def pushBack (m : ι → Links ι) (tail : Option ι) (a : ι) : ι → Links ι :=
  Function.update (setNext m tail (some a)) a ⟨tail, none⟩

/-- Link the neighbours of a cell to each other. -/
def unlink (m : ι → Links ι) (a : ι) : ι → Links ι :=
  setPrev (setNext m (m a).prev (m a).next) (m a).next (m a).prev

section Frame

variable {m : ι → Links ι} {c : ι}

theorem setNext_of_ne {p next : Option ι} (h : p ≠ some c) : setNext m p next c = m c := by
  cases p with
  | none => rfl
  | some a => exact Function.update_of_ne (fun he => h (congrArg some he.symm)) ..

theorem setPrev_of_ne {p prev : Option ι} (h : p ≠ some c) : setPrev m p prev c = m c := by
  cases p with
  | none => rfl
  | some a => exact Function.update_of_ne (fun he => h (congrArg some he.symm)) ..

theorem setNext_self {a : ι} {next : Option ι} : setNext m (some a) next a = { m a with next } :=
  Function.update_self ..

theorem setPrev_self {a : ι} {prev : Option ι} : setPrev m (some a) prev a = { m a with prev } :=
  Function.update_self ..

@[simp] theorem setNext_prev {p next : Option ι} : (setNext m p next c).prev = (m c).prev := by
  cases p with
  | none => rfl
  | some a =>
    by_cases h : c = a
    · subst h
      rw [setNext_self]
    · rw [setNext_of_ne fun he => h (Option.some.inj he).symm]

@[simp] theorem setPrev_next {p prev : Option ι} : (setPrev m p prev c).next = (m c).next := by
  cases p with
  | none => rfl
  | some a =>
    by_cases h : c = a
    · subst h
      rw [setPrev_self]
    · rw [setPrev_of_ne fun he => h (Option.some.inj he).symm]

theorem pushFront_of_ne {head : Option ι} {a : ι} (ha : c ≠ a) (hhead : head ≠ some c) :
    pushFront m head a c = m c :=
  (setPrev_of_ne hhead).trans (Function.update_of_ne ha ..)

theorem pushBack_of_ne {tail : Option ι} {a : ι} (ha : c ≠ a) (htail : tail ≠ some c) :
    pushBack m tail a c = m c :=
  (Function.update_of_ne ha ..).trans (setNext_of_ne htail)

theorem unlink_of_ne {a : ι} (hprev : (m a).prev ≠ some c) (hnext : (m a).next ≠ some c) :
    unlink m a c = m c :=
  (setPrev_of_ne hnext).trans (setNext_of_ne hprev)

end Frame

section Segments

omit [DecidableEq ι]

variable {m m' : ι → Links ι} {before head after : Option ι} {xs ys l : List ι} {a : ι}

/-- A segment depends on the links of its cells alone. -/
theorem Segment.congr (h : Segment m before head after l) (hm : ∀ c ∈ l, m' c = m c) :
    Segment m' before head after l := by
  induction l generalizing before head with
  | nil => exact h
  | cons a l ih =>
    obtain ⟨hhead, hprev, hrest⟩ := h
    have ha := hm a (List.mem_cons_self ..)
    refine ⟨hhead, ha ▸ hprev, ?_⟩
    rw [ha]
    exact ih hrest fun c hc => hm c (List.mem_cons_of_mem _ hc)

/-- A segment splits at every position of its cells. -/
theorem segment_append : Segment m before head after (xs ++ ys) ↔
    ∃ mid, Segment m before head mid xs ∧ Segment m (xs.getLast?.or before) mid after ys := by
  induction xs generalizing before head with
  | nil => exact ⟨fun h => ⟨head, rfl, h⟩, by rintro ⟨_, rfl, h⟩; exact h⟩
  | cons a xs ih =>
    have hlast : (a :: xs).getLast?.or before = xs.getLast?.or (some a) := by
      rw [List.getLast?_cons]
      cases xs.getLast? <;> rfl
    rw [hlast]
    constructor
    · rintro ⟨hhead, hprev, hrest⟩
      obtain ⟨mid, hxs, hys⟩ := ih.mp hrest
      exact ⟨mid, ⟨hhead, hprev, hxs⟩, hys⟩
    · rintro ⟨mid, ⟨hhead, hprev, hxs⟩, hys⟩
      exact ⟨hhead, hprev, ih.mpr ⟨mid, hxs, hys⟩⟩

/-- The pointer to a segment points to its first cell. -/
theorem Segment.head_eq (h : Segment m before head after l) : head = l.head?.or after := by
  cases l with
  | nil => exact h
  | cons a l => exact h.1

/-- A memory holds one list at a pointer. -/
theorem IsList.unique (h : IsList m head xs) (h' : IsList m head ys) : xs = ys := by
  have hgen : ∀ {xs ys : List ι} {before head}, Segment m before head none xs →
      Segment m before head none ys → xs = ys := by
    intro xs
    induction xs with
    | nil =>
      rintro ys before head rfl hys
      cases ys with
      | nil => rfl
      | cons b ys => cases hys.1
    | cons a xs ih =>
      intro ys before head hxs hys
      obtain ⟨rfl, -, hxs⟩ := hxs
      cases ys with
      | nil => cases hys
      | cons b ys =>
        obtain ⟨hab, -, hys⟩ := hys
        cases hab
        rw [ih hxs hys]
  exact hgen h h'

/-- The neighbours of a cell in a list are what its links point to. -/
theorem IsList.links (h : IsList m head (xs ++ a :: ys)) : m a = ⟨xs.getLast?, ys.head?⟩ := by
  obtain ⟨mid, -, -, hprev, hys⟩ := segment_append.mp h
  have hnext := hys.head_eq
  rw [Option.or_none] at hprev hnext
  exact Links.ext hprev hnext

end Segments

section Operations

variable {m : ι → Links ι} {before head after : Option ι} {xs ys l : List ι} {a : ι}

/-- Redirecting the `next` link of the last cell ends a segment somewhere else. -/
theorem Segment.setNext (h : Segment m before head after l) (hn : l.Nodup) (after' : Option ι) :
    Segment (setNext m l.getLast? after') before (l.head?.or after') after' l := by
  induction l generalizing before head with
  | nil => rfl
  | cons a l ih =>
    obtain ⟨-, hprev, hrest⟩ := h
    rw [List.nodup_cons] at hn
    refine ⟨rfl, by rw [setNext_prev, hprev], ?_⟩
    cases l with
    | nil =>
      change (LinkedList.setNext m (some a) after' a).next = after'
      rw [setNext_self]
    | cons b l =>
      have hkeep : LinkedList.setNext m (a :: b :: l).getLast? after' a = m a := by
        apply setNext_of_ne
        rw [List.getLast?_cons_cons]
        exact fun he => hn.1 (List.mem_of_getLast? he)
      rw [hkeep, hrest.1, List.getLast?_cons_cons]
      exact ih hrest hn.2

/-- Redirecting the `prev` link of the first cell puts a segment behind something else. -/
theorem Segment.setPrev (h : Segment m before head after l) (hn : l.Nodup)
    (hafter : l = [] → head = after) (before' : Option ι) :
    Segment (setPrev m l.head? before') before' head after l := by
  cases l with
  | nil => exact hafter rfl
  | cons a l =>
    obtain ⟨hhead, -, hrest⟩ := h
    rw [List.nodup_cons] at hn
    refine ⟨hhead, ?_, ?_⟩
    · change (LinkedList.setPrev m (some a) before' a).prev = before'
      rw [setPrev_self]
    · rw [setPrev_next]
      exact hrest.congr fun c hc => setPrev_of_ne fun he => by
        cases he
        exact hn.1 hc

/-- Linking a new cell in front leaves the list with the cell in front. -/
theorem IsList.pushFront (h : IsList m head l) (hn : l.Nodup) (ha : a ∉ l) :
    IsList (pushFront m head a) (some a) (a :: l) := by
  have hhead : head = l.head? := by rw [h.head_eq, Option.or_none]
  have hrest : IsList (Function.update m a ⟨none, head⟩) head l :=
    h.congr fun c hc => Function.update_of_ne (ne_of_mem_of_not_mem hc ha) ..
  have hne : head ≠ some a := by
    rw [hhead]
    exact fun he => ha (List.mem_of_mem_head? he)
  have hself : LinkedList.pushFront m head a a = ⟨none, head⟩ :=
    (setPrev_of_ne hne).trans (Function.update_self ..)
  refine ⟨rfl, by rw [hself], ?_⟩
  rw [hself]
  unfold LinkedList.pushFront
  have hlinked := hrest.setPrev hn (fun hl => by rw [hhead, hl]; rfl) (some a)
  rw [← hhead] at hlinked
  exact hlinked

/-- Linking a new cell behind the last leaves the list with the cell at its end. -/
theorem IsList.pushBack (h : IsList m head l) (hn : l.Nodup) (hne : l ≠ []) (ha : a ∉ l) :
    IsList (pushBack m l.getLast? a) head (l ++ [a]) := by
  have hhead : l.head?.or (some a) = head := by
    rw [h.head_eq]
    cases l with
    | nil => exact absurd rfl hne
    | cons b l => rfl
  have hlinked := h.setNext hn (some a)
  rw [hhead] at hlinked
  refine segment_append.mpr ⟨some a, ?_, rfl, ?_, ?_⟩
  · exact hlinked.congr fun c hc => Function.update_of_ne (ne_of_mem_of_not_mem hc ha) ..
  · rw [LinkedList.pushBack, Function.update_self, Option.or_none]
  · rw [LinkedList.pushBack, Function.update_self]
    rfl

/-- Unlinking a cell leaves the list without it. -/
theorem IsList.unlink (h : IsList m head (xs ++ a :: ys)) (hn : (xs ++ a :: ys).Nodup) :
    IsList (unlink m a) (xs ++ ys).head? (xs ++ ys) := by
  obtain ⟨hnxs, hnays, hdisjoint⟩ := List.nodup_append.mp hn
  have hnys := (List.nodup_cons.mp hnays).2
  have hlinks := h.links
  obtain ⟨mid, hxs, -, -, hys⟩ := segment_append.mp h
  rw [hlinks] at hys
  have hother : ∀ c ∈ ys, LinkedList.setNext m xs.getLast? ys.head? c = m c := fun c hc =>
    setNext_of_ne fun he =>
      hdisjoint c (List.mem_of_getLast? he) c (List.mem_cons_of_mem _ hc) rfl
  have hhead : (xs ++ ys).head? = xs.head?.or ys.head? := by
    cases xs <;> rfl
  unfold LinkedList.unlink
  rw [hlinks, hhead]
  refine segment_append.mpr ⟨ys.head?, ?_, ?_⟩
  · refine (hxs.setNext hnxs ys.head?).congr fun c hc => setPrev_of_ne fun he => ?_
    exact hdisjoint c hc c (List.mem_cons_of_mem _ (List.mem_of_mem_head? he)) rfl
  · rw [Option.or_none]
    exact (hys.congr hother).setPrev hnys (fun hl => by rw [hl]; rfl) xs.getLast?

end Operations

end LinkedList
