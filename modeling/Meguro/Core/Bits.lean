import Mathlib.Data.Nat.Bitwise
import Mathlib.Data.List.Range

/-!
# Numbers as words of bits

The bits of a number in a word of fixed width, the highest first, and the bits of
a list of such words one behind the other. A list of words is determined by its
bits, also when a remainder of known length follows them.
-/

namespace Bits

/-- The low `w` bits of a number, the highest first. -/
def bits (w n : Nat) : List Bool := (List.range w).reverse.map n.testBit

theorem length_bits (w n : Nat) : (bits w n).length = w := by
  unfold bits
  rw [List.length_map, List.length_reverse, List.length_range]

/-- The bits of a number that has been cut to its word. -/
theorem bits_mod (w n : Nat) : bits w (n % 2 ^ w) = bits w n := by
  apply List.map_congr_left
  intro i hi
  rw [List.mem_reverse, List.mem_range] at hi
  rw [Nat.testBit_mod_two_pow, decide_eq_true hi, Bool.true_and]

/-- Numbers that fit a word are told apart by its bits. -/
theorem bits_inj {w n m : Nat} (hn : n < 2 ^ w) (hm : m < 2 ^ w) (h : bits w n = bits w m) :
    n = m := by
  apply Nat.eq_of_testBit_eq
  intro i
  rcases Nat.lt_or_ge i w with hi | hi
  · have hsame : ∀ j ∈ (List.range w).reverse, n.testBit j = m.testBit j := List.map_inj_left.mp h
    exact hsame i (List.mem_reverse.mpr (List.mem_range.mpr hi))
  · have hpow : 2 ^ w ≤ 2 ^ i := Nat.pow_le_pow_right (by decide) hi
    rw [Nat.testBit_lt_two_pow (hn.trans_le hpow), Nat.testBit_lt_two_pow (hm.trans_le hpow)]

/-- What holds of 256 numbers holds of the bytes. -/
theorem forall_byte {P : UInt8 → Prop} (h : ∀ n < 256, P (UInt8.ofNat n)) (b : UInt8) : P b := by
  have hb := h b.toNat b.toNat_lt
  rwa [UInt8.ofNat_toNat] at hb

/-- The bits of words, one behind the other. -/
def spell (w : Nat) (ns : List Nat) : List Bool := ns.flatMap (bits w)

@[simp] theorem spell_nil (w : Nat) : spell w [] = [] := rfl

@[simp] theorem spell_cons (w n : Nat) (ns : List Nat) : spell w (n :: ns) = bits w n ++ spell w ns :=
  rfl

@[simp] theorem spell_append (w : Nat) (ns ms : List Nat) :
    spell w (ns ++ ms) = spell w ns ++ spell w ms := List.flatMap_append

/-- The bits of numbers that have been cut to their words. -/
theorem spell_map_mod (w : Nat) (ns : List Nat) : spell w (ns.map (· % 2 ^ w)) = spell w ns := by
  induction ns with
  | nil => rfl
  | cons n ns ih => rw [List.map_cons, spell_cons, spell_cons, bits_mod, ih]

theorem length_spell (w : Nat) (ns : List Nat) : (spell w ns).length = ns.length * w := by
  induction ns with
  | nil => exact (Nat.zero_mul w).symm
  | cons n ns ih =>
    rw [spell_cons, List.length_append, length_bits, ih, List.length_cons, Nat.succ_mul,
      Nat.add_comm]

/-- Words are determined by their bits, whatever remainder of one length follows them. -/
theorem spell_append_inj {w : Nat} (hw : 0 < w) {ns ms : List Nat} {xs ys : List Bool}
    (hns : ∀ n ∈ ns, n < 2 ^ w) (hms : ∀ m ∈ ms, m < 2 ^ w) (hlen : xs.length = ys.length)
    (h : spell w ns ++ xs = spell w ms ++ ys) : ns = ms ∧ xs = ys := by
  induction ns generalizing ms with
  | nil =>
    have hlength := congrArg List.length h
    rw [List.length_append, List.length_append, length_spell, length_spell, hlen,
      List.length_nil, Nat.zero_mul, Nat.zero_add] at hlength
    have hmul : ms.length * w = 0 := by omega
    rcases Nat.mul_eq_zero.mp hmul with hnil | hzero
    · obtain rfl := List.eq_nil_of_length_eq_zero hnil
      exact ⟨rfl, h⟩
    · exact absurd hzero hw.ne'
  | cons n ns ih =>
    cases ms with
    | nil =>
      have hlength := congrArg List.length h
      rw [List.length_append, List.length_append, length_spell, length_spell, hlen,
        List.length_cons, List.length_nil, Nat.succ_mul] at hlength
      omega
    | cons m ms =>
      rw [spell_cons, spell_cons, List.append_assoc, List.append_assoc] at h
      obtain ⟨hfirst, hrest⟩ := List.append_inj h (by rw [length_bits, length_bits])
      obtain rfl := bits_inj (hns n (List.mem_cons_self ..)) (hms m (List.mem_cons_self ..)) hfirst
      obtain ⟨rfl, hremainder⟩ := ih (fun k hk => hns k (List.mem_cons_of_mem _ hk))
        (fun k hk => hms k (List.mem_cons_of_mem _ hk)) hrest
      exact ⟨rfl, hremainder⟩

end Bits
