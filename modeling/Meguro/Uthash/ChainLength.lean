import Meguro.Uthash.Integrity
import Mathlib.Algebra.BigOperators.Group.Finset.Piecewise
import Mathlib.Algebra.BigOperators.Ring.Finset
import Mathlib.Algebra.Order.BigOperators.Group.Finset

/-!
# How long a chain gets

The header promises chains of a longer yet still bounded length. A chain stays
within its threshold of ten items for each of its `expand_mult + 1` units. The
multipliers themselves are bounded: an expansion gives a bucket one for every
ideal length of its chain, so together at most as many as there are buckets, and
the table has at most nineteen items for a bucket when the next add comes. That
keeps the ideal length at ten or less, and with it the next expansion within the
thresholds. The bounds hold until two expansions in a row turn out ineffective
and further ones are inhibited.
-/

namespace Meguro

open LinkedList Transition

/-- The length of a chain at which its bucket is to be expanded. -/
def UTHashBucket.threshold {ι : Type*} (b : UTHashBucket ι) : Nat :=
  (b.expandMult.toNat + 1) * hashBktCapacityThresh.toNat

/-- A bucket whose chain is as long as its threshold. -/
def UTHashBucket.isFull {ι : Type*} (b : UTHashBucket ι) : Bool := b.count.toNat = b.threshold

/-- The units a bucket takes of those the table has, one for each bucket. -/
def UTHashBucket.weight {ι : Type*} (b : UTHashBucket ι) : Nat :=
  b.expandMult.toNat + b.isFull.toNat

namespace UTHash

variable {ι κ : Type*} [DecidableEq ι]

/-- The chains are within their thresholds and the buckets within their units. -/
structure Balanced (buckets : Nat → UTHashBucket ι) (num : Nat) : Prop where
  count_le : ∀ i < num, (buckets i).count.toNat ≤ (buckets i).threshold
  weight_le : ∑ i ∈ Finset.range num, (buckets i).weight ≤ num

/-- As long as expansion is not inhibited, the table is balanced. -/
def ExpandsInTime (h : UTHash ι κ) : Prop :=
  h.tbl.noexpand = false → Balanced h.tbl.buckets h.tbl.numBuckets.toNat

variable {h : UTHash ι κ} {items : List ι} {buckets : Nat → UTHashBucket ι} {num : Nat}

/-! ## Counting items -/

omit [DecidableEq ι] in
/-- The counts of the buckets add up to the number of items. -/
theorem sum_count {bkt : ι → Links ι} {index : ι → Nat}
    (hholds : InBuckets bkt index buckets num items) (hindex : ∀ c ∈ items, index c < num) :
    ∑ i ∈ Finset.range num, (buckets i).count.toNat = items.length := by
  have hcounts : ∀ i ∈ Finset.range num,
      (buckets i).count.toNat = (items.filter (index · = i)).length := by
    intro i hi
    obtain ⟨chain, -, hcount, hperm⟩ := hholds i (Finset.mem_range.mp hi)
    rw [hcount, hperm.length_eq]
  rw [Finset.sum_congr rfl hcounts]
  clear hholds hcounts
  induction items with
  | nil => simp
  | cons a items ih =>
    have hone : ∑ i ∈ Finset.range num, (if index a = i then 1 else 0) = 1 := by
      rw [Finset.sum_ite_eq, if_pos (Finset.mem_range.mpr (hindex a (List.mem_cons_self ..)))]
    have hsplit : ∀ i ∈ Finset.range num, ((a :: items).filter (index · = i)).length =
        (items.filter (index · = i)).length + if index a = i then 1 else 0 := by
      intro i _
      by_cases hi : index a = i
      · rw [List.filter_cons_of_pos (by simpa using hi), if_pos hi, List.length_cons]
      · rw [List.filter_cons_of_neg (by simpa using hi), if_neg hi, Nat.add_zero]
    rw [Finset.sum_congr rfl hsplit, Finset.sum_add_distrib, hone,
      ih fun c hc => hindex c (List.mem_cons_of_mem _ hc), List.length_cons]

omit [DecidableEq ι] in
/-- A chain within its threshold has nine items and ten for each unit of its bucket. -/
theorem count_le_weight {b : UTHashBucket ι} (h : b.count.toNat ≤ b.threshold) :
    b.count.toNat ≤ 9 + 10 * b.weight := by
  unfold UTHashBucket.weight UTHashBucket.isFull
  have hten : b.threshold = (b.expandMult.toNat + 1) * 10 := rfl
  by_cases hfull : b.count.toNat = b.threshold
  · rw [decide_eq_true hfull, Bool.toNat_true]
    omega
  · omega

omit [DecidableEq ι] in
/-- What the code computes for a threshold is not above it. -/
theorem toNat_threshold_le (expandMult : UInt32) :
    ((expandMult + 1) * hashBktCapacityThresh).toNat ≤
      (expandMult.toNat + 1) * hashBktCapacityThresh.toNat := by
  rw [UInt32.toNat_mul, UInt32.toNat_add]
  exact (Nat.mod_le ..).trans (Nat.mul_le_mul_right _ (Nat.mod_le ..))

omit [DecidableEq ι] in
/-- A balanced table has at most nineteen items for each bucket. -/
theorem Balanced.sum_le (hb : Balanced buckets num) :
    ∑ i ∈ Finset.range num, (buckets i).count.toNat ≤ 19 * num := by
  have hle : ∑ i ∈ Finset.range num, (buckets i).count.toNat ≤
      ∑ i ∈ Finset.range num, (9 + 10 * (buckets i).weight) :=
    Finset.sum_le_sum fun i hi => count_le_weight (hb.count_le i (Finset.mem_range.mp hi))
  have hweight := hb.weight_le
  rw [Finset.sum_add_distrib, ← Finset.mul_sum, Finset.sum_const, Finset.card_range,
    nsmul_eq_mul, Nat.cast_id] at hle
  omega

/-! ## The ideal length -/

omit [DecidableEq ι] in
/-- The shift and the mask compute the items for each of twice the buckets. -/
theorem toNat_nextIdealChainMaxlen {tbl : UTHashTable ι}
    (hpow : tbl.numBuckets.toNat = 2 ^ tbl.log2NumBuckets.toNat)
    (hroom : tbl.numBuckets.toNat ≠ 2 ^ 31) :
    (nextIdealChainMaxlen tbl).toNat = tbl.numItems.toNat / (tbl.numBuckets.toNat * 2) +
      if tbl.numItems.toNat % (tbl.numBuckets.toNat * 2) = 0 then 0 else 1 := by
  obtain ⟨hdouble, hpow'⟩ := toNat_double hpow hroom
  have hlog : (tbl.log2NumBuckets + 1).toNat % 32 = (tbl.log2NumBuckets + 1).toNat := by
    apply Nat.mod_eq_of_lt
    apply (Nat.pow_lt_pow_iff_right (by decide : 1 < 2)).mp
    rw [← hpow']
    exact (tbl.numBuckets * 2).toNat_lt
  have hshift : (tbl.numItems >>> (tbl.log2NumBuckets + 1)).toNat =
      tbl.numItems.toNat / (tbl.numBuckets.toNat * 2) := by
    rw [UInt32.toNat_shiftRight, hlog, Nat.shiftRight_eq_div_pow, ← hpow', hdouble]
  have hmask : tbl.numItems &&& (tbl.numBuckets * 2 - 1) ≠ 0 ↔
      ¬ tbl.numItems.toNat % (tbl.numBuckets.toNat * 2) = 0 := by
    rw [ne_eq, ← UInt32.toNat_inj]
    change ¬ hashToBkt tbl.numItems (tbl.numBuckets * 2) = 0 ↔ _
    rw [hashToBkt_two_pow hpow', ← hpow', hdouble]
  have htwo : 2 ≤ tbl.numBuckets.toNat * 2 := by
    have hpos := Nat.two_pow_pos tbl.log2NumBuckets.toNat
    omega
  have hhalf : tbl.numItems.toNat / (tbl.numBuckets.toNat * 2) + 1 < 2 ^ 32 := by
    have hlt := tbl.numItems.toNat_lt
    have hle : tbl.numItems.toNat / (tbl.numBuckets.toNat * 2) ≤ tbl.numItems.toNat / 2 :=
      Nat.div_le_div_left htwo (by decide)
    omega
  unfold nextIdealChainMaxlen
  by_cases hmod : tbl.numItems.toNat % (tbl.numBuckets.toNat * 2) = 0
  · rw [if_neg (mt hmask.mp (not_not.mpr hmod)), if_pos hmod, UInt32.add_zero, hshift,
      Nat.add_zero]
  · rw [if_pos (hmask.mpr hmod), if_neg hmod, toNat_add_one (hshift ▸ hhalf), hshift]

omit [DecidableEq ι] in
/-- The ideal length is that number of items, rounded up. -/
theorem nextIdealChainMaxlen_le_iff {tbl : UTHashTable ι}
    (hpow : tbl.numBuckets.toNat = 2 ^ tbl.log2NumBuckets.toNat)
    (hroom : tbl.numBuckets.toNat ≠ 2 ^ 31) (m : Nat) :
    (nextIdealChainMaxlen tbl).toNat ≤ m ↔
      tbl.numItems.toNat ≤ m * (tbl.numBuckets.toNat * 2) := by
  have hpos : 0 < tbl.numBuckets.toNat * 2 := by
    rw [hpow]
    exact Nat.mul_pos (Nat.two_pow_pos _) (by decide)
  rw [toNat_nextIdealChainMaxlen hpow hroom]
  generalize tbl.numBuckets.toNat * 2 = b at hpos
  generalize tbl.numItems.toNat = n
  by_cases hmod : n % b = 0
  · rw [if_pos hmod, Nat.add_zero]
    have hexact : n = n / b * b := (Nat.div_mul_cancel (Nat.dvd_of_mod_eq_zero hmod)).symm
    conv_rhs => rw [hexact]
    exact (Nat.mul_le_mul_right_iff hpos).symm
  · rw [if_neg hmod, Nat.succ_le_iff, Nat.div_lt_iff_lt_mul hpos]
    have hne : n ≠ m * b := by
      intro he
      rw [he, Nat.mul_mod_left] at hmod
      exact hmod rfl
    omega

/-! ## The steps -/

omit [DecidableEq ι] in
/-- Each bucket has for its units as many ideal lengths of items. -/
theorem weight_mul_le {b : UTHashBucket ι} {ideal : UInt32} (hideal : ideal.toNat ≤ 10)
    (hpos : 0 < ideal.toNat)
    (hmult : b.expandMult = if b.count > ideal then b.count / ideal else 0) :
    b.count.toNat ≤ b.threshold ∧ b.weight * ideal.toNat ≤ b.count.toNat := by
  have hthreshold : b.threshold = (b.expandMult.toNat + 1) * 10 := rfl
  unfold UTHashBucket.weight UTHashBucket.isFull
  by_cases hover : b.count > ideal
  · rw [if_pos hover] at hmult
    have hdiv : b.expandMult.toNat = b.count.toNat / ideal.toNat := by
      rw [hmult, UInt32.toNat_div]
    have hlt : b.count.toNat < (b.expandMult.toNat + 1) * ideal.toNat := by
      rw [hdiv, Nat.mul_comm]
      exact Nat.lt_mul_div_succ b.count.toNat hpos
    have hten : (b.expandMult.toNat + 1) * ideal.toNat ≤ (b.expandMult.toNat + 1) * 10 :=
      Nat.mul_le_mul_left _ hideal
    have hnot : b.count.toNat ≠ b.threshold := by omega
    refine ⟨by omega, ?_⟩
    rw [decide_eq_false hnot, Bool.toNat_false, Nat.add_zero, hdiv]
    exact Nat.div_mul_le_self ..
  · rw [if_neg hover] at hmult
    rw [gt_iff_lt, UInt32.lt_iff_toNat_lt] at hover
    have hzero : b.expandMult.toNat = 0 := by
      rw [hmult]
      rfl
    rw [hzero, Nat.zero_add]
    refine ⟨by omega, ?_⟩
    by_cases hfull : b.count.toNat = b.threshold
    · rw [decide_eq_true hfull, Bool.toNat_true]
      omega
    · rw [decide_eq_false hfull, Bool.toNat_false]
      omega

omit [DecidableEq ι] in
/-- An expansion of a table with at most ten items for each of twice the buckets
leaves it balanced. -/
theorem balanced_of_moved {hashv : ι → UInt32} {num ideal : UInt32} {s : ExpandState ι}
    {moved : List ι} (hs : Moved hashv num ideal s moved)
    (hindex : ∀ c ∈ moved, indexOf hashv num c < num.toNat) (hideal : ideal.toNat ≤ 10)
    (hpos : 0 < ideal.toNat) (hlength : moved.length ≤ ideal.toNat * num.toNat) :
    Balanced s.newBuckets num.toNat := by
  refine ⟨fun i hi => (weight_mul_le hideal hpos (hs.expandMult i hi)).1, ?_⟩
  have hsum : ∑ i ∈ Finset.range num.toNat, (s.newBuckets i).weight * ideal.toNat ≤
      ∑ i ∈ Finset.range num.toNat, (s.newBuckets i).count.toNat :=
    Finset.sum_le_sum fun i hi =>
      (weight_mul_le hideal hpos (hs.expandMult i (Finset.mem_range.mp hi))).2
  rw [← Finset.sum_mul, sum_count hs.holds hindex] at hsum
  have hle := hsum.trans hlength
  rw [Nat.mul_comm ideal.toNat] at hle
  exact Nat.le_of_mul_le_mul_right hle hpos

omit [DecidableEq ι] in
/-- A bucket may be replaced by one that is within its threshold and takes no more units. -/
theorem Balanced.update (hb : Balanced buckets num) {j : Nat} {b : UTHashBucket ι}
    (hcount : b.count.toNat ≤ b.threshold)
    (hweight : b.weight ≤ (buckets j).weight) : Balanced (Function.update buckets j b) num := by
  refine ⟨fun i hi => ?_, ?_⟩
  · by_cases hij : i = j
    · rw [hij, Function.update_self]
      exact hcount
    · rw [Function.update_of_ne hij]
      exact hb.count_le i hi
  · refine le_trans (Finset.sum_le_sum fun i _ => ?_) hb.weight_le
    by_cases hij : i = j
    · rw [hij, Function.update_self]
      exact hweight
    · rw [Function.update_of_ne hij]

omit [DecidableEq ι] in
/-- A bucket with the same multiplier and a chain below the threshold takes no more units. -/
theorem weight_le_of_lt {b b' : UTHashBucket ι} (hmult : b'.expandMult = b.expandMult)
    (hlt : b'.count.toNat < b'.threshold) : b'.weight ≤ b.weight := by
  unfold UTHashBucket.weight UTHashBucket.isFull
  rw [decide_eq_false (Nat.ne_of_lt hlt), hmult]
  exact Nat.add_le_add_left (Nat.zero_le _) _

/-- An expansion that returns leaves a table balanced that had at most ten items for each
of twice its buckets. -/
theorem hashExpandBuckets_balanced {h' : UTHash ι κ} {malloc : Bool} (hf : Filled h items)
    (hn : items.Nodup) (hne : items ≠ [])
    (hlength : items.length ≤ 10 * (h.tbl.numBuckets.toNat * 2))
    (hexpand : hashExpandBuckets malloc h = some h') :
    Balanced h'.tbl.buckets h'.tbl.numBuckets.toNat := by
  have hroom : h.tbl.numBuckets.toNat ≠ 2 ^ 31 := by
    intro hfull
    rw [hashExpandBuckets_eq_none hf hne hfull] at hexpand
    cases hexpand
  obtain rfl : malloc = true := by
    cases malloc with
    | true => rfl
    | false => cases hexpand
  obtain ⟨s, moved, hs, hperm, hmoved, -⟩ := hashExpandBuckets_filled hf hn hroom
  rw [hs] at hexpand
  cases hexpand
  obtain ⟨hdouble, hpow⟩ := toNat_double hf.numBuckets hroom
  have hten : (nextIdealChainMaxlen h.tbl).toNat ≤ 10 := by
    rw [nextIdealChainMaxlen_le_iff hf.numBuckets hroom, hf.numItems]
    exact hlength
  have hpos : 0 < (nextIdealChainMaxlen h.tbl).toNat := by
    by_contra hzero
    have hle := (nextIdealChainMaxlen_le_iff hf.numBuckets hroom 0).mp (Nat.le_of_not_lt hzero)
    rw [hf.numItems, Nat.zero_mul] at hle
    exact hne (List.length_eq_zero_iff.mp (Nat.le_zero.mp hle))
  have hmany : moved.length ≤
      (nextIdealChainMaxlen h.tbl).toNat * (h.tbl.numBuckets * 2).toNat := by
    rw [hperm.length_eq, ← hf.numItems, hdouble]
    exact (nextIdealChainMaxlen_le_iff hf.numBuckets hroom _).mp (Nat.le_refl _)
  exact balanced_of_moved hmoved (fun c _ => hashToBkt_lt hpow) hten hpos hmany

/-- An add expands the table before a chain gets beyond its threshold. -/
theorem hashAddToBkt_inTime {h' : UTHash ι κ} {a : ι} {malloc : Bool} (hin : ExpandsInTime h)
    (hcount : h.tbl.numItems.toNat = items.length + 1)
    (hpow : h.tbl.numBuckets.toNat = 2 ^ h.tbl.log2NumBuckets.toNat)
    (hholds : InBuckets h.bkt (indexOf h.hashv h.tbl.numBuckets) h.tbl.buckets
      h.tbl.numBuckets.toNat items) (hn : items.Nodup) (ha : a ∉ items)
    (hadd : hashAddToBkt malloc h (indexOf h.hashv h.tbl.numBuckets a) a = some h') :
    ExpandsInTime h' := by
  have hlinked := linkInBkt_filled hcount hpow hholds hn ha
  have hn' : (items ++ [a]).Nodup := List.Nodup.append hn (List.nodup_singleton a) (by simpa)
  unfold hashAddToBkt at hadd
  dsimp only at hadd
  split at hadd
  · rename_i hexpand
    have hb := hin hexpand.2
    have hsum := hb.sum_le
    rw [sum_count hholds fun _ _ => hashToBkt_lt hpow] at hsum
    have hone : 0 < h.tbl.numBuckets.toNat := hpow ▸ Nat.two_pow_pos _
    have hmany : (items ++ [a]).length ≤ 10 * (h.tbl.numBuckets.toNat * 2) := by
      rw [List.length_append, List.length_singleton]
      omega
    exact fun _ => hashExpandBuckets_balanced hlinked hn' (by simp) hmany hadd
  · rename_i hexpand
    cases hadd
    intro hnoexpand
    have hlt : ((h.tbl.buckets (indexOf h.hashv h.tbl.numBuckets a)).count + 1).toNat <
        ((h.tbl.buckets (indexOf h.hashv h.tbl.numBuckets a)).expandMult.toNat + 1) *
          hashBktCapacityThresh.toNat := by
      refine Nat.lt_of_lt_of_le ?_ (toNat_threshold_le _)
      by_contra hge
      exact hexpand (mustExpand_linkInBkt.mpr
        ⟨UInt32.le_iff_toNat_le.mpr (Nat.le_of_not_lt hge), hnoexpand⟩)
    exact (hin hnoexpand).update (Nat.le_of_lt hlt) (weight_le_of_lt rfl hlt)

/-- A new table is balanced. -/
theorem expandsInTime_hashAppend {hashFcn : κ → UInt32} (hw : Wf hashFcn h items)
    (hin : items ≠ [] → ExpandsInTime h) (keyptr : κ) (a : ι) :
    ExpandsInTime (hashAppend hashFcn h keyptr a) := by
  unfold ExpandsInTime hashAppend
  dsimp only
  by_cases hempty : items = []
  · rw [if_pos (hw.isNone_head.mpr hempty)]
    intro _
    refine ⟨fun i _ => Nat.zero_le _, ?_⟩
    have hzero : ∀ i ∈ Finset.range hashInitialNumBuckets.toNat,
        (⟨none, 0, 0⟩ : UTHashBucket ι).weight = 0 := fun _ _ => rfl
    change ∑ i ∈ Finset.range hashInitialNumBuckets.toNat,
      (⟨none, 0, 0⟩ : UTHashBucket ι).weight ≤ _
    rw [Finset.sum_congr rfl hzero, Finset.sum_const_zero]
    exact Nat.zero_le _
  · rw [if_neg (mt hw.isNone_head.mp hempty)]
    exact hin hempty

/-- A delete takes an item out of one chain. -/
theorem hashDelete_inTime {hashFcn : κ → UInt32} {a : ι} (hw : Wf hashFcn h items)
    (ha : a ∈ items) (hin : ExpandsInTime h) : ExpandsInTime (hashDelete h a) := by
  have hfilled := hw.filled (List.ne_nil_of_mem ha)
  unfold hashDelete
  split
  · exact hin
  · intro hnoexpand
    have hb := hin hnoexpand
    have hindex : indexOf h.hashv h.tbl.numBuckets a < _ := hashToBkt_lt hfilled.numBuckets
    have hle := hb.count_le _ hindex
    obtain ⟨own, -, hown, hperm⟩ := hfilled.holds _ hindex
    have hmem : a ∈ own := hperm.mem_iff.mpr (List.mem_filter.mpr ⟨ha, decide_eq_true rfl⟩)
    have hone : 0 < (h.tbl.buckets (indexOf h.hashv h.tbl.numBuckets a)).count.toNat :=
      hown ▸ List.length_pos_of_mem hmem
    have hlt : ((h.tbl.buckets (indexOf h.hashv h.tbl.numBuckets a)).count - 1).toNat <
        (h.tbl.buckets (indexOf h.hashv h.tbl.numBuckets a)).threshold := by
      rw [toNat_sub_one hone]
      omega
    exact hb.update (Nat.le_of_lt hlt) (weight_le_of_lt rfl hlt)

/-! ## Runs -/

variable {hashFcn : κ → UInt32} {s t : UTHash ι κ × List ι} {l : UTHashLabel ι κ}
  {ls : List (UTHashLabel ι κ)}

/-- A table with elements expands in time. -/
theorem step_inTime (hw : Wf hashFcn s.1 s.2) (hin : s.2 ≠ [] → ExpandsInTime s.1)
    (h : step hashFcn s l = some t) : t.2 ≠ [] → ExpandsInTime t.1 := by
  intro _
  cases l with
  | add keyptr a malloc =>
    obtain ⟨⟨ha, hlength⟩, hadd⟩ := Option.ite_none_right_eq_some.mp h
    obtain ⟨h', hh', rfl⟩ := Option.map_eq_some_iff.mp hadd
    obtain ⟨hcount, hpow, hholds⟩ := holds_hashAppend hw ha hlength keyptr
    have hlinked := (Option.ite_none_left_eq_some.mp hh').2
    dsimp only at hlinked
    rw [← indexOf_hashAppend] at hlinked
    exact hashAddToBkt_inTime (expandsInTime_hashAppend hw hin keyptr a) hcount hpow hholds
      hw.nodup ha hlinked
  | delete a =>
    obtain ⟨ha, hdelete⟩ := Option.ite_none_right_eq_some.mp h
    cases hdelete
    exact hashDelete_inTime hw ha (hin (List.ne_nil_of_mem ha))

/-- After every sequence of adds and deletes, unless expansion has been
inhibited, a chain has at most ten items for each of its `expand_mult + 1`
units, the multipliers add up to at most the number of buckets, and there are
at most nineteen items for each bucket. -/
theorem chainLength_of_run (hnull : h.head = none)
    (hrun : run (step hashFcn) (h, []) ls = some s) (hne : s.2 ≠ [])
    (hexpand : s.1.tbl.noexpand = false) :
    (∀ i < s.1.tbl.numBuckets.toNat, ∃ chain,
      IsList s.1.bkt (s.1.tbl.buckets i).hhHead chain ∧
      chain.length ≤
        ((s.1.tbl.buckets i).expandMult.toNat + 1) * hashBktCapacityThresh.toNat) ∧
    ∑ i ∈ Finset.range s.1.tbl.numBuckets.toNat, (s.1.tbl.buckets i).expandMult.toNat ≤
      s.1.tbl.numBuckets.toNat ∧
    s.2.length ≤ 19 * s.1.tbl.numBuckets.toNat := by
  have hinvariant : Wf hashFcn s.1 s.2 ∧ (s.2 ≠ [] → ExpandsInTime s.1) := by
    refine run_invariant (I := fun s : UTHash ι κ × List ι => Wf hashFcn s.1 s.2 ∧
      (s.2 ≠ [] → ExpandsInTime s.1)) ?_ ⟨wf_empty hnull, absurd rfl⟩ hrun
    rintro s l t ⟨hw, hin⟩ hstep
    exact ⟨step_wf hw hstep, step_inTime hw hin hstep⟩
  have hfilled := hinvariant.1.filled hne
  have hb := hinvariant.2 hne hexpand
  refine ⟨fun i hi => ?_, ?_, ?_⟩
  · obtain ⟨chain, hlist, hcount, -⟩ := hfilled.holds i hi
    exact ⟨chain, hlist, hcount ▸ hb.count_le i hi⟩
  · exact le_trans (Finset.sum_le_sum fun i _ => Nat.le_add_right ..) hb.weight_le
  · have hsum := hb.sum_le
    rwa [sum_count hfilled.holds fun _ _ => hashToBkt_lt hfilled.numBuckets] at hsum

theorem chainLength_collidingTable :
    (∀ i < collidingTable.1.tbl.numBuckets.toNat, ∃ chain,
      IsList collidingTable.1.bkt (collidingTable.1.tbl.buckets i).hhHead chain ∧
      chain.length ≤ ((collidingTable.1.tbl.buckets i).expandMult.toNat + 1) *
        hashBktCapacityThresh.toNat) ∧
    ∑ i ∈ Finset.range collidingTable.1.tbl.numBuckets.toNat,
      (collidingTable.1.tbl.buckets i).expandMult.toNat ≤
        collidingTable.1.tbl.numBuckets.toNat ∧
    collidingTable.2.length ≤ 19 * collidingTable.1.tbl.numBuckets.toNat :=
  chainLength_of_run rfl (Option.some_get _).symm (by decide +kernel) (by decide +kernel)

end UTHash

end Meguro
