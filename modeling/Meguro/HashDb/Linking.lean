import Meguro.HashDb.Reading
import Meguro.HashDb.WriteRec

/-!
# Linking a record into the tree of its bucket

The last step of `tchdbwriterec` writes the link to the record where the walk of
`tchdbputimpl` came from: into the bucket array or into the header of another
record. The tree of the bucket then is the one a `put` makes of it, and every other
tree stays as it is.
-/

namespace Meguro

open ByteFile Tiling SearchTree

/-- A record with another link. -/
def StoredRecord.setLink (r : StoredRecord) : Side → Nat → StoredRecord
  | .left, off => { r with left := off }
  | .right, off => { r with right := off }

namespace StoredRecord

variable {fmt : HdbFormat} (r : StoredRecord) (side : Side) (off : Nat)

@[simp] theorem setLink_key : (r.setLink side off).key = r.key := by cases side <;> rfl

@[simp] theorem setLink_value : (r.setLink side off).value = r.value := by cases side <;> rfl

@[simp] theorem setLink_psiz : (r.setLink side off).psiz = r.psiz := by cases side <;> rfl

theorem size_setLink : (r.setLink side off).size fmt = r.size fmt := by
  rw [size_eq, size_eq, length_header, length_header, setLink_key, setLink_value, setLink_psiz]

variable {r off}

theorem fits_setLink (h : r.Fits fmt) (haligned : fmt.align ∣ off) (hlt : off < 2 ^ 31) :
    (r.setLink side off).Fits fmt := by
  cases side with
  | left => exact ⟨haligned, h.right_aligned, hlt, h.right_lt, h.psiz_lt⟩
  | right => exact ⟨h.left_aligned, haligned, h.left_lt, hlt, h.psiz_lt⟩

/-- Writing a link into the header of a record. -/
theorem has_setLink {file : ByteFile} {n : TreeNode}
    (h : file.Has n.off (r.bytes fmt)) (off : Nat) :
    (file.write (entryOff fmt 0 (some (n, side))) (fmt.link off)).Has n.off
      ((r.setLink side off).bytes fmt) := by
  cases side with
  | left =>
    have hsplit : ∀ left, ({ r with left } : StoredRecord).bytes fmt =
        [hdbMagicRec, r.hash] ++ fmt.link left ++ (fmt.link r.right ++ (leBytes 2 r.psiz ++
          (setVnumBuf r.key.length ++ setVnumBuf r.value.length)) ++
            (r.key ++ (r.value ++ List.replicate r.psiz 0))) := by
      intro left
      unfold bytes header HdbFormat.header
      simp only [List.cons_append, List.nil_append, List.append_assoc]
    have hr : r.bytes fmt = ({ r with left := r.left } : StoredRecord).bytes fmt := rfl
    rw [hr, hsplit] at h
    change (file.write (n.off + 2) (fmt.link off)).Has n.off
      (({ r with left := off } : StoredRecord).bytes fmt)
    rw [hsplit]
    exact h.overwrite rfl (by rw [HdbFormat.length_link, HdbFormat.length_link])
  | right =>
    have hsplit : ∀ right, ({ r with right } : StoredRecord).bytes fmt =
        (hdbMagicRec :: r.hash :: fmt.link r.left) ++ fmt.link right ++ ((leBytes 2 r.psiz ++
          (setVnumBuf r.key.length ++ setVnumBuf r.value.length)) ++
            (r.key ++ (r.value ++ List.replicate r.psiz 0))) := by
      intro right
      unfold bytes header HdbFormat.header
      simp only [List.cons_append, List.append_assoc]
    have hr : r.bytes fmt = ({ r with right := r.right } : StoredRecord).bytes fmt := rfl
    rw [hr, hsplit] at h
    change (file.write (n.off + 2 + fmt.linkSiz) (fmt.link off)).Has n.off
      (({ r with right := off } : StoredRecord).bytes fmt)
    rw [hsplit]
    refine h.overwrite ?_ (by rw [HdbFormat.length_link, HdbFormat.length_link])
    rw [List.length_cons, List.length_cons, HdbFormat.length_link]
    omega

end StoredRecord

variable {fmt : HdbFormat} {hdb : TCHDB} {H K : Nat → Option Block} {holes : List Nat}

/-! ## The bucket array -/

theorem bucketOff_add_le (hv : fmt.Valid) {bidx : Nat} (hbidx : bidx < fmt.bnum) :
    hdbHeadSiz ≤ fmt.bucketOff bidx ∧ fmt.bucketOff bidx + fmt.linkSiz ≤ fmt.frec := by
  have hmsiz := hv.msiz_le
  have hmul : (bidx + 1) * fmt.linkSiz ≤ fmt.bnum * fmt.linkSiz := Nat.mul_le_mul_right _ hbidx
  rw [Nat.succ_mul] at hmul
  unfold HdbFormat.msiz at hmsiz
  unfold HdbFormat.bucketOff
  omega

/-- Two elements of the bucket array do not overlap. -/
theorem bucketOff_apart (fmt : HdbFormat) {i j : Nat} (hne : i ≠ j) :
    fmt.bucketOff i + fmt.linkSiz ≤ fmt.bucketOff j ∨
      fmt.bucketOff j + fmt.linkSiz ≤ fmt.bucketOff i := by
  unfold HdbFormat.bucketOff
  rcases Nat.lt_or_gt_of_ne hne with hlt | hlt
  · have hmul : (i + 1) * fmt.linkSiz ≤ j * fmt.linkSiz := Nat.mul_le_mul_right _ hlt
    rw [Nat.succ_mul] at hmul
    omega
  · have hmul : (j + 1) * fmt.linkSiz ≤ i * fmt.linkSiz := Nat.mul_le_mul_right _ hlt
    rw [Nat.succ_mul] at hmul
    omega

theorem getBucket_congr (hv : fmt.Valid) {hdb' : TCHDB} {bidx : Nat} (hbidx : bidx < fmt.bnum)
    (h : ∀ i, hdbHeadSiz ≤ i → i < fmt.frec → hdb'.file i = hdb.file i) :
    fmt.getBucket hdb' bidx = fmt.getBucket hdb bidx := by
  obtain ⟨hlo, hhi⟩ := bucketOff_add_le hv hbidx
  unfold HdbFormat.getBucket
  rw [read_congr fun i hi hlt => h i (by omega) (by omega)]

/-- The link of a bucket is written. -/
theorem setEntry_bucket (hv : fmt.Valid) (h : hdb.Laid fmt H holes) {bidx off : Nat}
    (hbidx : bidx < fmt.bnum) (haligned : fmt.align ∣ off) (hlt : off < 2 ^ 31) :
    (fmt.setEntry hdb bidx 0 off).Laid fmt H holes ∧
      fmt.getBucket (fmt.setEntry hdb bidx 0 off) bidx = off ∧
      ∀ j < fmt.bnum, j ≠ bidx →
        fmt.getBucket (fmt.setEntry hdb bidx 0 off) j = fmt.getBucket hdb j := by
  obtain ⟨hlo, hhi⟩ := bucketOff_add_le hv hbidx
  have hfile : (fmt.setEntry hdb bidx 0 off).file =
      hdb.file.write (fmt.bucketOff bidx) (fmt.link off) := rfl
  refine ⟨h.of_file fun i hi => ?_, ?_, fun j hj hne => ?_⟩
  · rw [hfile]
    exact write_of_le (by rw [HdbFormat.length_link]; omega)
  · have hhas := has_write hdb.file (fmt.bucketOff bidx) (fmt.link off)
    unfold ByteFile.Has at hhas
    rw [HdbFormat.length_link] at hhas
    unfold HdbFormat.getBucket
    rw [hfile, hhas, fmt.ofLink_link haligned hlt]
  · unfold HdbFormat.getBucket
    rw [hfile, read_write_of_disjoint]
    rw [HdbFormat.length_link]
    exact bucketOff_apart fmt hne

/-- The link of a record is written. -/
theorem setEntry_node (h : hdb.Laid fmt H holes) {n : TreeNode} {rec : StoredRecord}
    (hrec : H n.off = some (.record rec)) (side : Side) {bidx off : Nat}
    (haligned : fmt.align ∣ off) (hlt : off < 2 ^ 31) :
    (fmt.setEntry hdb bidx (entryOff fmt 0 (some (n, side))) off).Laid fmt
        (Function.update H n.off (some (.record (rec.setLink side off)))) holes ∧
      ∀ i < fmt.frec, (fmt.setEntry hdb bidx (entryOff fmt 0 (some (n, side))) off).file i =
        hdb.file i := by
  have hpos : entryOff fmt 0 (some (n, side)) > 0 := by
    cases side with
    | left => exact Nat.succ_pos _
    | right => exact Nat.add_pos_left (Nat.succ_pos _) _
  have hfile : (fmt.setEntry hdb bidx (entryOff fmt 0 (some (n, side))) off).file =
      hdb.file.write (entryOff fmt 0 (some (n, side))) (fmt.link off) := by
    unfold HdbFormat.setEntry
    rw [if_pos hpos]
  have hrange := h.tiled.inside hrec
  have hsize := StoredRecord.size_eq fmt rec
  have hheader := StoredRecord.length_header fmt rec
  have hinside : n.off ≤ entryOff fmt 0 (some (n, side)) ∧
      entryOff fmt 0 (some (n, side)) + fmt.linkSiz ≤ n.off + rec.size fmt := by
    cases side with
    | left =>
      change n.off ≤ n.off + 2 ∧ n.off + 2 + fmt.linkSiz ≤ n.off + rec.size fmt
      omega
    | right =>
      change n.off ≤ n.off + 2 + fmt.linkSiz ∧
        n.off + 2 + fmt.linkSiz + fmt.linkSiz ≤ n.off + rec.size fmt
      omega
  have hout : ∀ i, i < n.off ∨ n.off + rec.size fmt ≤ i →
      (fmt.setEntry hdb bidx (entryOff fmt 0 (some (n, side))) off).file i = hdb.file i := by
    rw [hfile]
    rintro i (hi | hi)
    · exact write_of_lt _ (by omega)
    · exact write_of_le (by rw [HdbFormat.length_link]; omega)
  refine ⟨h.update hrec (fun hfree => hfree) (rec.size_setLink side off)
    (StoredRecord.fits_setLink side (h.fits hrec) haligned hlt) (fun i _ hi => hout i hi) ?_
    (fun x hx _ => hx) (fun n hn => by cases hn), fun i hi => hout i (.inl (by omega))⟩
  rw [hfile]
  exact StoredRecord.has_setLink side (has_record h hrec) off

/-! ## The tree of a bucket -/

/-- The tree after a `put`, when one link and the record behind it have changed. -/
theorem Linked.put {off : Nat} {t sub : BinaryTree TreeNode} {link : Option (TreeNode × Side)}
    {new : TreeNode} (hleads : Leads keyCmp TreeNode.key new.key t link sub) (hl : Linked H off t)
    (hnodup : (nodes t).Nodup)
    (hnew : Linked K new.off (SearchTree.put keyCmp TreeNode.key new sub))
    (hkeep : ∀ n ∈ nodes t, (∀ p ∈ link, n ≠ p.1) → n ∉ nodes sub →
      ∀ rec, H n.off = some (.record rec) → K n.off = some (.record rec))
    (hlink : ∀ p ∈ link, ∀ rec, H p.1.off = some (.record rec) →
      K p.1.off = some (.record (rec.setLink p.2 new.off))) :
    Linked K (link.elim new.off fun _ => off) (SearchTree.put keyCmp TreeNode.key new t) := by
  induction hleads generalizing off with
  | nil => exact hnew
  | here => exact hnew
  | @left a l r link sub hgt hsub ih =>
    obtain ⟨rfl, hpos, rec, hrec, hkey, hvalue, hhash, hleft, hright⟩ := hl
    obtain ⟨ha, hlr⟩ := List.nodup_cons.mp hnodup
    obtain ⟨hl, -, hapart⟩ := List.nodup_append.mp hlr
    have hal : a ∉ nodes l := fun hmem => ha (List.mem_append_left _ hmem)
    have har : a ∉ nodes r := fun hmem => ha (List.mem_append_right _ hmem)
    simp only [SearchTree.put, hgt]
    cases link with
    | none =>
      have hself : ∀ {n p}, p ∈ some (a, Side.left) → n = p.1 → n = a := fun hp hnp =>
        hnp.trans (congrArg Prod.fst (Option.some.inj hp)).symm
      have ihl := ih hleft hl hnew
        (fun n hn _ hns => hkeep n (mem_nodes_node.mpr (.inr (.inl hn)))
          (fun p hp hnp => hal (hself hp hnp ▸ hn)) hns) fun p hp => by cases hp
      refine ⟨rfl, hpos, _, hlink (a, .left) rfl rec hrec, hkey, hvalue, hhash, ihl, ?_⟩
      exact hright.congr fun n hn => hkeep n (mem_nodes_node.mpr (.inr (.inr hn)))
        (fun p hp hnp => har (hself hp hnp ▸ hn))
        fun hns => hapart n (hsub.mem.1 n hns) n hn rfl
    | some q =>
      have hq : q.1 ∈ nodes l := hsub.mem.2 q rfl
      have ihl := ih hleft hl hnew
        (fun n hn hnp hns => hkeep n (mem_nodes_node.mpr (.inr (.inl hn))) hnp hns) hlink
      refine ⟨rfl, hpos, rec, hkeep a (mem_nodes_node.mpr (.inl rfl)) ?_ ?_ rec hrec, hkey, hvalue,
        hhash, ihl, ?_⟩
      · exact fun p hp hnp => hal (by rw [hnp, ← Option.some.inj hp]; exact hq)
      · exact fun hns => hal (hsub.mem.1 a hns)
      · exact hright.congr fun n hn => hkeep n (mem_nodes_node.mpr (.inr (.inr hn)))
          (fun p hp hnp => hapart p.1 (by rw [← Option.some.inj hp]; exact hq) n hn hnp.symm)
          fun hns => hapart n (hsub.mem.1 n hns) n hn rfl
  | @right a l r link sub hlt hsub ih =>
    obtain ⟨rfl, hpos, rec, hrec, hkey, hvalue, hhash, hleft, hright⟩ := hl
    obtain ⟨ha, hlr⟩ := List.nodup_cons.mp hnodup
    obtain ⟨-, hr, hapart⟩ := List.nodup_append.mp hlr
    have hal : a ∉ nodes l := fun hmem => ha (List.mem_append_left _ hmem)
    have har : a ∉ nodes r := fun hmem => ha (List.mem_append_right _ hmem)
    simp only [SearchTree.put, hlt]
    cases link with
    | none =>
      have hself : ∀ {n p}, p ∈ some (a, Side.right) → n = p.1 → n = a := fun hp hnp =>
        hnp.trans (congrArg Prod.fst (Option.some.inj hp)).symm
      have ihr := ih hright hr hnew
        (fun n hn _ hns => hkeep n (mem_nodes_node.mpr (.inr (.inr hn)))
          (fun p hp hnp => har (hself hp hnp ▸ hn)) hns) fun p hp => by cases hp
      refine ⟨rfl, hpos, _, hlink (a, .right) rfl rec hrec, hkey, hvalue, hhash, ?_, ihr⟩
      exact hleft.congr fun n hn => hkeep n (mem_nodes_node.mpr (.inr (.inl hn)))
        (fun p hp hnp => hal (hself hp hnp ▸ hn))
        fun hns => hapart n hn n (hsub.mem.1 n hns) rfl
    | some q =>
      have hq : q.1 ∈ nodes r := hsub.mem.2 q rfl
      have ihr := ih hright hr hnew
        (fun n hn hnp hns => hkeep n (mem_nodes_node.mpr (.inr (.inr hn))) hnp hns) hlink
      refine ⟨rfl, hpos, rec, hkeep a (mem_nodes_node.mpr (.inl rfl)) ?_ ?_ rec hrec, hkey, hvalue,
        hhash, ?_, ihr⟩
      · exact fun p hp hnp => har (by rw [hnp, ← Option.some.inj hp]; exact hq)
      · exact fun hns => har (hsub.mem.1 a hns)
      · exact hleft.congr fun n hn => hkeep n (mem_nodes_node.mpr (.inr (.inl hn)))
          (fun p hp hnp => hapart n hn p.1 (by rw [← Option.some.inj hp]; exact hq) hnp)
          fun hns => hapart n hn n (hsub.mem.1 n hns) rfl

end Meguro
