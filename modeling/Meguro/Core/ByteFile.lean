import Mathlib.Data.List.Basic
import Mathlib.Data.Nat.Digits.Defs

/-!
# Files as bytes

The bytes of a file by offset, reading and writing a range of them, and numbers in
little-endian order. A file has a text at an offset when reading there gives the
text; a write keeps what it does not overlap, and overwriting a part of a text
replaces this part of it.
-/

/-- The bytes of a file, by offset. -/
abbrev ByteFile := Nat → UInt8

namespace ByteFile

/-- Read `n` bytes at an offset. -/
def read (f : ByteFile) : Nat → Nat → List UInt8
  | _, 0 => []
  | off, n + 1 => f off :: f.read (off + 1) n

/-- Write bytes at an offset. -/
def write (f : ByteFile) (off : Nat) (bs : List UInt8) : ByteFile := fun i =>
  if off ≤ i then bs.getD (i - off) (f i) else f i

/-- The file has these bytes at this offset. -/
def Has (f : ByteFile) (off : Nat) (bs : List UInt8) : Prop := f.read off bs.length = bs

variable {f g : ByteFile}

@[simp] theorem read_zero (f : ByteFile) (off : Nat) : f.read off 0 = [] := rfl

theorem read_succ (f : ByteFile) (off n : Nat) :
    f.read off (n + 1) = f off :: f.read (off + 1) n := rfl

@[simp] theorem length_read (f : ByteFile) (off n : Nat) : (f.read off n).length = n := by
  induction n generalizing off with
  | zero => rfl
  | succ n ih => rw [read_succ, List.length_cons, ih]

/-- A read splits at every place. -/
theorem read_add (f : ByteFile) (off m n : Nat) :
    f.read off (m + n) = f.read off m ++ f.read (off + m) n := by
  induction m generalizing off with
  | zero => rw [Nat.zero_add, read_zero, List.nil_append, Nat.add_zero]
  | succ m ih =>
    rw [Nat.succ_add, read_succ, read_succ, ih, List.cons_append, Nat.add_assoc, Nat.add_comm 1 m]

/-- A read sees only the bytes of its range. -/
theorem read_congr {off n : Nat} (h : ∀ i, off ≤ i → i < off + n → f i = g i) :
    f.read off n = g.read off n := by
  induction n generalizing off with
  | zero => rfl
  | succ n ih =>
    rw [read_succ, read_succ, h off (Nat.le_refl off) (by omega),
      ih fun i hi hlt => h i (by omega) (by omega)]

theorem write_of_lt {off i : Nat} (bs : List UInt8) (h : i < off) : f.write off bs i = f i :=
  if_neg (by omega)

theorem write_of_le {off i : Nat} {bs : List UInt8} (h : off + bs.length ≤ i) :
    f.write off bs i = f i := by
  unfold write
  split
  · rw [List.getD_eq_getElem?_getD, List.getElem?_eq_none (by omega), Option.getD_none]
  · rfl

/-- What a write does not overlap it keeps. -/
theorem read_write_of_disjoint {off n off' : Nat} {bs : List UInt8}
    (h : off + n ≤ off' ∨ off' + bs.length ≤ off) : (f.write off' bs).read off n = f.read off n :=
  read_congr fun i hi hlt => by
    rcases h with h | h
    · exact write_of_lt bs (by omega)
    · exact write_of_le (by omega)

theorem getElem_read {off n i : Nat} (h : i < (f.read off n).length) :
    (f.read off n)[i] = f (off + i) := by
  induction n generalizing off i with
  | zero => exact absurd h (Nat.not_lt_zero i)
  | succ n ih =>
    cases i with
    | zero => rfl
    | succ i =>
      have hi : i < (f.read (off + 1) n).length := by
        rw [length_read] at h ⊢
        omega
      simp only [read_succ, List.getElem_cons_succ, ih hi]
      congr 1
      omega

/-- What has been written is read back. -/
theorem has_write (f : ByteFile) (off : Nat) (bs : List UInt8) : (f.write off bs).Has off bs := by
  refine List.ext_getElem (length_read _ _ _) fun i hread hi => ?_
  rw [getElem_read, write, if_pos (Nat.le_add_right off i), Nat.add_sub_cancel_left,
    List.getD_eq_getElem?_getD, List.getElem?_eq_getElem hi, Option.getD_some]

@[simp] theorem has_nil (f : ByteFile) (off : Nat) : f.Has off [] := rfl

/-- Two texts one behind the other. -/
theorem has_append {off : Nat} {as bs : List UInt8} :
    f.Has off (as ++ bs) ↔ f.Has off as ∧ f.Has (off + as.length) bs := by
  unfold Has
  rw [List.length_append, read_add]
  refine ⟨fun h => List.append_inj h (length_read _ _ _), fun h => ?_⟩
  rw [h.1, h.2]

/-- A text survives a write beside it. -/
theorem Has.write_of_disjoint {off off' : Nat} {as bs : List UInt8} (h : f.Has off as)
    (hd : off + as.length ≤ off' ∨ off' + bs.length ≤ off) : (f.write off' bs).Has off as :=
  (read_write_of_disjoint hd).trans h

/-- A text stays where the files agree. -/
theorem Has.congr {off : Nat} {bs : List UInt8} (h : f.Has off bs)
    (hfg : ∀ i, off ≤ i → i < off + bs.length → g i = f i) : g.Has off bs :=
  (read_congr hfg).trans h

/-- Overwriting the middle of a text. -/
theorem Has.overwrite {off at' : Nat} {as bs cs new : List UInt8} (h : f.Has off (as ++ bs ++ cs))
    (hat : at' = off + as.length) (hlen : new.length = bs.length) :
    (f.write at' new).Has off (as ++ new ++ cs) := by
  subst hat
  obtain ⟨hfront, hcs⟩ := has_append.mp h
  obtain ⟨has, -⟩ := has_append.mp hfront
  refine has_append.mpr ⟨has_append.mpr ⟨?_, has_write _ _ _⟩, ?_⟩
  · exact has.write_of_disjoint (.inl (Nat.le_refl _))
  · rw [List.length_append] at hcs ⊢
    rw [hlen]
    exact hcs.write_of_disjoint (.inr (by omega))

/-- The bytes read from the front of a text. -/
theorem Has.read_eq {off : Nat} {as bs : List UInt8} (h : f.Has off (as ++ bs)) :
    f.read off as.length = as :=
  (has_append.mp h).1

/-- Reading further than a text. -/
theorem Has.read_append {off n : Nat} {as : List UInt8} (h : f.Has off as) (hn : as.length ≤ n) :
    ∃ rest, f.read off n = as ++ rest ∧ rest.length = n - as.length := by
  obtain ⟨m, rfl⟩ := Nat.exists_eq_add_of_le hn
  refine ⟨f.read (off + as.length) m, ?_, by simp⟩
  rw [read_add, h]

/-! ## Little-endian numbers -/

/-- The `w` low bytes of a number, the lowest first. -/
def leBytes : Nat → Nat → List UInt8
  | 0, _ => []
  | w + 1, n => UInt8.ofNat n :: leBytes w (n / 256)

/-- The number bytes stand for, the lowest first. -/
def leNat (bs : List UInt8) : Nat := Nat.ofDigits 256 (bs.map UInt8.toNat)

@[simp] theorem length_leBytes (w n : Nat) : (leBytes w n).length = w := by
  induction w generalizing n with
  | zero => rfl
  | succ w ih => rw [leBytes, List.length_cons, ih]

/-- A number that fits is read back. -/
theorem leNat_leBytes {w n : Nat} (h : n < 256 ^ w) : leNat (leBytes w n) = n := by
  induction w generalizing n with
  | zero => exact (Nat.lt_one_iff.mp h).symm
  | succ w ih =>
    have hhigh : leNat (leBytes w (n / 256)) = n / 256 :=
      ih (Nat.div_lt_of_lt_mul (by rwa [Nat.pow_succ, Nat.mul_comm] at h))
    have hcons : leNat (leBytes (w + 1) n) =
        (UInt8.ofNat n).toNat + 256 * leNat (leBytes w (n / 256)) := Nat.ofDigits_cons ..
    rw [hcons, hhigh, UInt8.toNat_ofNat']
    exact Nat.mod_add_div n 256

end ByteFile
