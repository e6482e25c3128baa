import Meguro.Core.SearchTree
import Meguro.HashDb.Allocation

/-!
# Reading the records of a bucket

`tchdbreadrec` recognizes every block of a file that is laid out. The records of a
bucket are linked to a tree in the order of their second hash values and keys, and
the walk of `tchdbputimpl` and `tchdbgetimpl` ends where a search in this tree ends.
-/

namespace Meguro

open ByteFile Tiling SearchTree

variable {fmt : HdbFormat} {hdb : TCHDB} {H : Nat → Option Block} {holes : List Nat} {off : Nat}
  {r : StoredRecord}

/-! ## Reading a block -/

theorem runit_ge (fmt : HdbFormat) : 48 ≤ fmt.runit := by
  unfold HdbFormat.runit hdbMinRunit hdbIoBufSiz
  omega

theorem has_record (h : hdb.Laid fmt H holes) (hr : H off = some (.record r)) :
    hdb.file.Has off (r.bytes fmt) := h.has hr

theorem size_record_le (h : hdb.Laid fmt H holes) (hr : H off = some (.record r)) :
    off + r.size fmt ≤ hdb.fsiz := (h.tiled.inside hr).2

/-- The header of a record fits what is read of it at once. -/
theorem length_header_le (h : hdb.Laid fmt H holes) (hr : H off = some (.record r)) :
    (r.header fmt).length ≤ 30 := by
  have hlen := StoredRecord.length_header fmt r
  have hsize := StoredRecord.size_eq fmt r
  have hle := size_record_le h hr
  have hlt := h.fsiz_lt
  have hlink := fmt.linkSiz_eq
  have hk : (setVnumBuf r.key.length).length ≤ 5 := length_setVnumBuf_le (by omega)
  have hv : (setVnumBuf r.value.length).length ≤ 5 := length_setVnumBuf_le (by omega)
  omega

/-- A record is parsed from the bytes read of it. -/
theorem exists_parse (h : hdb.Laid fmt H holes) (hr : H off = some (.record r)) {n : Nat}
    (hn : (r.header fmt).length ≤ n) :
    ∃ trec, fmt.parseRec off (hdb.file.read off n) = some trec ∧ trec.Shows fmt off r := by
  have hhas := has_record h hr
  unfold StoredRecord.bytes at hhas
  generalize hbody : r.key ++ (r.value ++ List.replicate r.psiz 0) = body at hhas
  obtain ⟨hheader, hrest⟩ := has_append.mp hhas
  obtain ⟨m, rfl⟩ := Nat.exists_eq_add_of_le hn
  rw [read_add, hheader]
  refine HdbFormat.exists_parseRec (h.fits hr) off ?_
  rw [hbody]
  rcases Nat.le_total m body.length with hle | hle
  · left
    refine ⟨hdb.file.read (off + (r.header fmt).length + m) (body.length - m), ?_⟩
    rw [← read_add, Nat.add_sub_cancel' hle]
    exact hrest
  · right
    obtain ⟨rest, hread, -⟩ := hrest.read_append hle
    exact ⟨rest, hread.symm⟩

/-- `tchdbreadrec` at a record. -/
theorem readRec_record (h : hdb.Laid fmt H holes) (hr : H off = some (.record r)) :
    ∃ trec, fmt.readRec hdb off = some trec ∧ trec.Shows fmt off r := by
  have hrunit := runit_ge fmt
  have hheader := length_header_le h hr
  have hle := size_record_le h hr
  have hsize : 5 ≤ r.size fmt := Block.five_le_size (h.fits hr)
  have hsize' := StoredRecord.size_eq fmt r
  unfold HdbFormat.readRec
  split
  · exact exists_parse h hr (by omega)
  · dsimp only
    rw [if_neg (by omega)]
    exact exists_parse h hr (by omega)

/-- `tchdbreadrec` at a free block. -/
theorem readRec_free (h : hdb.Laid fmt H holes) {rsiz : Nat} (hb : H off = some (.free rsiz)) :
    fmt.readRec hdb off = some { TCHREC.at off with magic := hdbMagicFb, rsiz } := by
  have hrunit := runit_ge fmt
  have hhas : hdb.file.Has off (hdbMagicFb :: leBytes 4 rsiz) := h.has hb
  have hle : off + rsiz ≤ hdb.fsiz := (h.tiled.inside hb).2
  have hsize : 5 ≤ rsiz := h.fits hb
  have hlt := h.fsiz_lt
  have hlen : (hdbMagicFb :: leBytes 4 rsiz).length = 5 := by rw [List.length_cons, length_leBytes]
  have hparse : ∀ n, 5 ≤ n → fmt.parseRec off (hdb.file.read off n) =
      some { TCHREC.at off with magic := hdbMagicFb, rsiz } := by
    intro n hn
    obtain ⟨rest, hread, -⟩ := hhas.read_append (n := n) (by rwa [hlen])
    rw [hread]
    exact HdbFormat.parseRec_fb fmt off (by omega) rest
  unfold HdbFormat.readRec
  split
  · exact hparse _ (by omega)
  · dsimp only
    rw [if_neg (by omega)]
    exact hparse _ (by omega)

/-- `tchdbreadrecbody` reads key and value. -/
theorem readRecBody_shows (h : hdb.Laid fmt H holes) (hr : H off = some (.record r)) {trec : TCHREC}
    (hs : trec.Shows fmt off r) :
    (HdbFormat.readRecBody hdb trec).Shows fmt off r ∧
      (HdbFormat.readRecBody hdb trec).kbuf = some r.key ∧
      (HdbFormat.readRecBody hdb trec).vbuf = some r.value := by
  have hhas := has_record h hr
  unfold StoredRecord.bytes at hhas
  obtain ⟨-, hrest⟩ := has_append.mp hhas
  obtain ⟨hkey, hrest⟩ := has_append.mp hrest
  have hkbuf : (HdbFormat.readRecBody hdb trec).kbuf = some r.key := by
    unfold HdbFormat.readRecBody
    rw [hs.boff_eq, hs.ksiz_eq, hkey]
  have hvbuf : (HdbFormat.readRecBody hdb trec).vbuf = some r.value := by
    unfold HdbFormat.readRecBody
    rw [hs.boff_eq, hs.ksiz_eq, hs.vsiz_eq, hrest.read_eq]
  exact ⟨⟨hs.off_eq, hs.rsiz_eq, hs.magic_eq, hs.hash_eq, hs.left_eq, hs.right_eq, hs.ksiz_eq,
    hs.vsiz_eq, .inr hkbuf, .inr ⟨hkbuf, hvbuf⟩, hs.boff_eq⟩, hkbuf, hvbuf⟩

/-- The body is read only if the key is not yet there. -/
theorem shows_loadKey (h : hdb.Laid fmt H holes) (hr : H off = some (.record r)) {trec : TCHREC}
    (hs : trec.Shows fmt off r) :
    (if trec.kbuf.isNone then HdbFormat.readRecBody hdb trec else trec).Shows fmt off r ∧
      (if trec.kbuf.isNone then HdbFormat.readRecBody hdb trec else trec).kbuf = some r.key := by
  rcases hs.kbuf_eq with hnone | hsome
  · rw [hnone]
    exact ⟨(readRecBody_shows h hr hs).1, (readRecBody_shows h hr hs).2.1⟩
  · rw [hsome]
    exact ⟨hs, hsome⟩

theorem vbuf_loadValue (h : hdb.Laid fmt H holes) (hr : H off = some (.record r)) {trec : TCHREC}
    (hs : trec.Shows fmt off r) :
    (if trec.vbuf.isNone then HdbFormat.readRecBody hdb trec else trec).vbuf = some r.value := by
  rcases hs.vbuf_eq with hnone | ⟨-, hsome⟩
  · rw [hnone]
    exact (readRecBody_shows h hr hs).2.2
  · rw [hsome]
    exact hsome

/-! ## The order of the records of a bucket -/

theorem memcmp_eq_iff {abuf bbuf : List UInt8} (h : abuf.length = bbuf.length) :
    memcmp abuf bbuf = .eq ↔ abuf = bbuf := by
  induction abuf generalizing bbuf with
  | nil => exact ⟨fun _ => (List.length_eq_zero_iff.mp h.symm).symm, fun _ => by rw [memcmp]⟩
  | cons a abuf ih =>
    cases bbuf with
    | nil => cases h
    | cons b bbuf =>
      rw [memcmp, List.cons.injEq]
      by_cases hlt : a < b
      · rw [if_pos hlt]
        exact ⟨nofun, fun h => (UInt8.lt_irrefl b (h.1 ▸ hlt)).elim⟩
      · by_cases hgt : a > b
        · rw [if_neg hlt, if_pos hgt]
          exact ⟨nofun, fun h => (hlt (h.1 ▸ h.1 ▸ hgt)).elim⟩
        · rw [if_neg hlt, if_neg hgt, ih (Nat.succ.inj h)]
          have hab : a = b := by
            by_contra hne
            exact (UInt8.lt_or_lt_of_ne hne).elim hlt hgt
          exact ⟨fun h => ⟨hab, h⟩, fun h => h.2⟩

theorem recKeyCmp_eq_iff {abuf bbuf : List UInt8} : recKeyCmp abuf bbuf = .eq ↔ abuf = bbuf := by
  unfold recKeyCmp
  split
  · next hlt => exact ⟨nofun, fun h => (Nat.lt_irrefl _ (h ▸ hlt)).elim⟩
  · split
    · next hlt => exact ⟨nofun, fun h => (Nat.lt_irrefl _ (h ▸ hlt)).elim⟩
    · exact memcmp_eq_iff (by omega)

/-- How two keys of a bucket compare: by their second hash values, then themselves. -/
def keyCmp (abuf bbuf : List UInt8) : Ordering :=
  if secondHash abuf > secondHash bbuf then .gt
  else if secondHash abuf < secondHash bbuf then .lt
  else recKeyCmp abuf bbuf

theorem keyCmp_eq_iff (abuf bbuf : List UInt8) : keyCmp abuf bbuf = .eq ↔ abuf = bbuf := by
  unfold keyCmp
  split
  · next hgt => exact ⟨nofun, fun h => (UInt8.lt_irrefl _ (h ▸ hgt)).elim⟩
  · split
    · next hlt => exact ⟨nofun, fun h => (UInt8.lt_irrefl _ (h ▸ hlt)).elim⟩
    · exact recKeyCmp_eq_iff

/-- A record in the tree of its bucket. -/
structure TreeNode where
  off : Nat
  key : List UInt8
  value : List UInt8

/-- The records of the file are linked to this tree. -/
def Linked (H : Nat → Option Block) : Nat → BinaryTree TreeNode → Prop
  | off, .nil => off = 0
  | off, .node n l r => n.off = off ∧ 0 < off ∧ ∃ rec, H off = some (.record rec) ∧
      rec.key = n.key ∧ rec.value = n.value ∧ rec.hash = secondHash n.key ∧
      Linked H rec.left l ∧ Linked H rec.right r

/-- Every node is a record of the file. -/
theorem Linked.mem {t : BinaryTree TreeNode} (hl : Linked H off t) {n : TreeNode}
    (hn : n ∈ nodes t) :
    0 < n.off ∧ ∃ rec, H n.off = some (.record rec) ∧ rec.key = n.key ∧ rec.value = n.value ∧
      rec.hash = secondHash n.key := by
  induction t generalizing off with
  | nil => cases hn
  | node a l r ihl ihr =>
    obtain ⟨rfl, hpos, rec, hrec, hkey, hvalue, hhash, hleft, hright⟩ := hl
    rcases mem_nodes_node.mp hn with rfl | hn | hn
    · exact ⟨hpos, rec, hrec, hkey, hvalue, hhash⟩
    · exact ihl hleft hn
    · exact ihr hright hn

/-- Nodes at the same place are the same. -/
theorem Linked.eq_of_off_eq {off' : Nat} {t t' : BinaryTree TreeNode} (hl : Linked H off t)
    (hl' : Linked H off' t') {n n' : TreeNode} (hn : n ∈ nodes t) (hn' : n' ∈ nodes t')
    (hoff : n.off = n'.off) : n = n' := by
  obtain ⟨-, rec, hrec, hkey, hvalue, -⟩ := hl.mem hn
  obtain ⟨-, rec', hrec', hkey', hvalue', -⟩ := hl'.mem hn'
  rw [hoff, hrec', Option.some.injEq, Block.record.injEq] at hrec
  cases n
  cases n'
  subst hrec
  cases hoff
  cases hkey
  cases hvalue
  cases hkey'
  cases hvalue'
  rfl

/-- A tree stays linked as long as its records stay. -/
theorem Linked.congr {K : Nat → Option Block} {t : BinaryTree TreeNode} (hl : Linked H off t)
    (hkeep : ∀ n ∈ nodes t, ∀ rec, H n.off = some (.record rec) → K n.off = some (.record rec)) :
    Linked K off t := by
  induction t generalizing off with
  | nil => exact hl
  | node a l r ihl ihr =>
    obtain ⟨rfl, hpos, rec, hrec, hkey, hvalue, hhash, hleft, hright⟩ := hl
    exact ⟨rfl, hpos, rec, hkeep a (mem_nodes_node.mpr (.inl rfl)) rec hrec, hkey, hvalue, hhash,
      ihl hleft fun n hn => hkeep n (mem_nodes_node.mpr (.inr (.inl hn))),
      ihr hright fun n hn => hkeep n (mem_nodes_node.mpr (.inr (.inr hn)))⟩

/-! ## The walk through a tree -/

/-- Where in the file a link is; with no node it is that of the bucket. -/
def entryOff (fmt : HdbFormat) (entoff : Nat) : Option (TreeNode × Side) → Nat
  | none => entoff
  | some (n, .left) => n.off + 2
  | some (n, .right) => n.off + 2 + fmt.linkSiz

theorem entryOff_or (fmt : HdbFormat) (entoff : Nat) (link : Option (TreeNode × Side))
    (p : TreeNode × Side) :
    entryOff fmt entoff (link.or (some p)) = entryOff fmt (entryOff fmt entoff (some p)) link := by
  cases link with
  | none => rfl
  | some q =>
    obtain ⟨n, side⟩ := q
    cases side <;> rfl

/-- One turn of the loop over a bucket. -/
theorem searchTree_step (h : hdb.Laid fmt H holes) (hr : H off = some (.record r)) (hpos : 0 < off)
    (hhash : r.hash = secondHash r.key) (kbuf : List UInt8) (fuel entoff : Nat) :
    ∃ trec, trec.Shows fmt off r ∧ trec.kbuf = some r.key ∧
      fmt.searchTree hdb kbuf (secondHash kbuf) (fuel + 1) off entoff =
        match keyCmp kbuf r.key with
        | .gt => fmt.searchTree hdb kbuf (secondHash kbuf) fuel r.left (off + 2)
        | .lt => fmt.searchTree hdb kbuf (secondHash kbuf) fuel r.right (off + 2 + fmt.linkSiz)
        | .eq => some (.found trec entoff) := by
  obtain ⟨trec, hread, hs⟩ := readRec_record h hr
  obtain ⟨hs', hkbuf⟩ := shows_loadKey h hr hs
  refine ⟨_, hs', hkbuf, ?_⟩
  rw [HdbFormat.searchTree, if_pos hpos, hread]
  simp only [Option.bind_eq_bind, Option.bind_some, hs.hash_eq, hhash, hs.left_eq, hs.right_eq,
    hs.off_eq, hkbuf, Option.getD_some, hs'.left_eq, hs'.right_eq]
  unfold keyCmp
  by_cases hgt : secondHash kbuf > secondHash r.key
  · rw [if_pos hgt, if_pos hgt]
  · rw [if_neg hgt, if_neg hgt]
    by_cases hlt : secondHash kbuf < secondHash r.key
    · rw [if_pos hlt, if_pos hlt]
    · cases recKeyCmp kbuf r.key <;> simp only [if_neg hlt]

/-- The walk ends where the search in the tree ends. -/
theorem searchTree_spec (h : hdb.Laid fmt H holes) {kbuf : List UInt8} {t sub : BinaryTree TreeNode}
    {link : Option (TreeNode × Side)} (hleads : Leads keyCmp TreeNode.key kbuf t link sub)
    (hl : Linked H off t) {fuel : Nat} (hfuel : t.numNodes ≤ fuel) (entoff : Nat) :
    (sub = .nil ∧ fmt.searchTree hdb kbuf (secondHash kbuf) fuel off entoff =
        some (.missing (entryOff fmt entoff link))) ∨
      ∃ n l r rec trec, sub = .node n l r ∧ H n.off = some (.record rec) ∧ rec.key = n.key ∧
        rec.value = n.value ∧ Linked H rec.left l ∧ Linked H rec.right r ∧
        trec.Shows fmt n.off rec ∧
        fmt.searchTree hdb kbuf (secondHash kbuf) fuel off entoff =
          some (.found trec (entryOff fmt entoff link)) := by
  induction hleads generalizing off fuel entoff with
  | nil =>
    left
    have hoff : off = 0 := hl
    subst hoff
    cases fuel <;> exact ⟨rfl, rfl⟩
  | @here a l r heq =>
    right
    obtain ⟨rfl, hpos, rec, hrec, hkey, hvalue, hhash, hleft, hright⟩ := hl
    obtain ⟨fuel, rfl⟩ : ∃ m, fuel = m + 1 := ⟨fuel - 1, by
      rw [BinaryTree.numNodes] at hfuel
      omega⟩
    obtain ⟨trec, hs, -, hsearch⟩ :=
      searchTree_step h hrec hpos (hkey ▸ hhash) kbuf fuel entoff
    rw [hkey, heq] at hsearch
    exact ⟨a, l, r, rec, trec, rfl, hrec, hkey, hvalue, hleft, hright, hs, hsearch⟩
  | @left a l r link sub hgt _ ih =>
    obtain ⟨rfl, hpos, rec, hrec, hkey, hvalue, hhash, hleft, hright⟩ := hl
    rw [BinaryTree.numNodes] at hfuel
    obtain ⟨fuel, rfl⟩ : ∃ m, fuel = m + 1 := ⟨fuel - 1, by omega⟩
    obtain ⟨_, _, _, hsearch⟩ := searchTree_step h hrec hpos (hkey ▸ hhash) kbuf fuel entoff
    rw [hkey, hgt] at hsearch
    rw [hsearch, entryOff_or]
    exact ih hleft (by omega) _
  | @right a l r link sub hlt _ ih =>
    obtain ⟨rfl, hpos, rec, hrec, hkey, hvalue, hhash, hleft, hright⟩ := hl
    rw [BinaryTree.numNodes] at hfuel
    obtain ⟨fuel, rfl⟩ : ∃ m, fuel = m + 1 := ⟨fuel - 1, by omega⟩
    obtain ⟨_, _, _, hsearch⟩ := searchTree_step h hrec hpos (hkey ▸ hhash) kbuf fuel entoff
    rw [hkey, hlt] at hsearch
    rw [hsearch, entryOff_or]
    exact ih hright (by omega) _

end Meguro
