import Meguro.HashDb.Represents
import Meguro.Store.Hdb

/-!
# The hash database is the store of the program

A database that has just been created is empty, and every `tchdbput` into it is one
of the store the rest of the development speaks of. After any run of puts `tchdbget`
looks up the records of the store, and the iterator, which walks over the blocks of
the file, lists every key of it once.
-/

namespace Meguro

open ByteFile Tiling SearchTree

variable {fmt : HdbFormat} {hdb : TCHDB} {H : Nat → Option Block}

/-! ## A new database -/

theorem create_valid {bnum : Nat} (hbnum : 0 < bnum) (apow fpow : Int) (large : Bool) :
    (HdbFormat.create bnum apow fpow large).Valid := by
  unfold HdbFormat.create
  dsimp only
  refine ⟨?_, hbnum, ?_, (HdbFormat.padSize_spec _ _).2⟩
  · unfold hdbMaxApow hdbDefApow
    dsimp only
    split <;> omega
  · unfold HdbFormat.msiz
    dsimp only [HdbFormat.linkSiz]
    rw [Nat.mul_comm bnum]
    omega

theorem read_zeros (off n : Nat) : ByteFile.read (fun _ => 0) off n = leBytes n 0 := by
  induction n generalizing off with
  | zero => rfl
  | succ n ih =>
    rw [read_succ, ih, leBytes]
    rfl

/-- A new database is empty. -/
theorem openNew_represents (hv : fmt.Valid) (hlt : fmt.frec < 2 ^ 31) :
    Represents fmt fmt.openNew (fun _ => none) (fun _ => none) fun _ => .nil where
  laid :=
    { tiled := ⟨.inl rfl, Nat.le_refl _, nofun, nofun, nofun, nofun⟩
      has := nofun
      fits := nofun
      aligned := by
        rintro x (rfl | ⟨b, hb⟩)
        · exact hv.frec_aligned
        · cases hb
      hole := nofun
      pool := Pool.nil _ _
      fsiz_lt := hlt }
  linked := by
    intro i hi
    have hzeros : fmt.getBucket { fmt.openNew with file := fun _ => 0 } i = 0 := by
      unfold HdbFormat.getBucket
      rw [read_zeros]
      have hlink := fmt.ofLink_link (Nat.dvd_zero fmt.align) (Nat.two_pow_pos 31)
      unfold HdbFormat.link at hlink
      rwa [Nat.zero_shiftRight] at hlink
    rw [← getBucket_congr hv hi fun j hj _ => ?_] at hzeros
    · exact hzeros
    · unfold HdbFormat.openNew
      dsimp only
      have hj' : 256 ≤ j := hj
      rw [write_of_le (by rw [length_leBytes]; unfold hdbFsizOff; omega),
        write_of_le (by rw [length_leBytes]; unfold hdbRnumOff; omega)]
  ordered := fun _ => trivial
  bucket := nofun
  numNodes := fun _ => Nat.le_refl 0
  complete := nofun
  lookup := fun k v => ⟨nofun, fun ⟨_, hn, _⟩ => by cases hn⟩

/-! ## Iterating -/

/-- The keys of the records from an offset on, each once. -/
structure KeysFrom (H : Nat → Option Block) (off : Nat) (order : List (List UInt8)) : Prop where
  nodup : order.Nodup
  mem_iff : ∀ k, k ∈ order ↔ ∃ x r, off ≤ x ∧ H x = some (.record r) ∧ r.key = k

/-- What the iterator does from an offset on. -/
structure IteratesFrom (fmt : HdbFormat) (hdb : TCHDB) (H : Nat → Option Block) (off : Nat)
    (order : List (List UInt8)) (iter : Nat) : Prop where
  next : ∀ fuel, hdb.fsiz - off < fuel →
    fmt.iterNext fuel { hdb with iter := off } = (order.head?, { hdb with iter })
  rest : order ≠ [] → ∀ fuel, hdb.fsiz - off ≤ fuel →
    fmt.iterKeys fuel { hdb with iter } = order.tail
  keys : KeysFrom H off order

theorem IteratesFrom.iterKeys {off iter fuel : Nat} {order : List (List UInt8)}
    (h : IteratesFrom fmt hdb H off order iter) (hfuel : hdb.fsiz - off < fuel) :
    fmt.iterKeys fuel { hdb with iter := off } = order := by
  obtain ⟨fuel, rfl⟩ : ∃ m, fuel = m + 1 := ⟨fuel - 1, by omega⟩
  have hnext := h.next (hdb.fsiz + 1) (by omega)
  rw [HdbFormat.iterKeys]
  dsimp only
  rw [hnext]
  cases order with
  | nil => rfl
  | cons k order =>
    exact congrArg (k :: ·) (h.rest (List.cons_ne_nil _ _) fuel (by omega))

/-- The keys behind a block are those from the next one on, and its own. -/
theorem KeysFrom.of_next {lo : Nat} (ht : Tiled (Block.size fmt) H lo hdb.fsiz) {off : Nat}
    {b : Block} (hb : H off = some b) {order : List (List UInt8)}
    (h : KeysFrom H (off + b.size fmt) order) (k : List UInt8) :
    (∃ x r, off ≤ x ∧ H x = some (.record r) ∧ r.key = k) ↔
      (∃ r, b = .record r ∧ r.key = k) ∨ k ∈ order := by
  rw [h.mem_iff]
  constructor
  · rintro ⟨x, r, hx, hr, hkey⟩
    by_cases hself : x = off
    · rw [hself, hb, Option.some.injEq] at hr
      exact .inl ⟨r, hr, hkey⟩
    · refine .inr ⟨x, r, ht.le_boundary hb (.inr ⟨_, hr⟩) (by omega), hr, hkey⟩
  · rintro (⟨r, rfl, hkey⟩ | ⟨x, r, hx, hr, hkey⟩)
    · exact ⟨off, r, Nat.le_refl _, hb, hkey⟩
    · exact ⟨x, r, by omega, hr, hkey⟩

/-- From every boundary on the iterator gives the keys of the records. -/
theorem exists_iteratesFrom (h : hdb.Laid fmt H [])
    (hdistinct : ∀ {x y r r'}, H x = some (.record r) → H y = some (.record r') →
      r.key = r'.key → x = y)
    {off : Nat} (hoff : Boundary H hdb.fsiz off) :
    ∃ order iter, IteratesFrom fmt hdb H off order iter := by
  refine h.tiled.walk (motive := fun off => ∃ order iter, IteratesFrom fmt hdb H off order iter)
    ⟨[], hdb.fsiz, fun fuel hfuel => ?_, fun hne => (hne rfl).elim, List.nodup_nil, fun k => ?_⟩
    (fun off b hb hnext => ?_) hoff
  · obtain ⟨fuel, rfl⟩ : ∃ m, fuel = m + 1 := ⟨fuel - 1, by omega⟩
    rw [HdbFormat.iterNext]
    dsimp only
    rw [if_neg (Nat.lt_irrefl _)]
    rfl
  · refine ⟨nofun, fun ⟨x, r, hle, hr, _⟩ => ?_⟩
    rw [h.tiled.eq_none_of_le hle] at hr
    cases hr
  · obtain ⟨order, iter, hiterates⟩ := hnext
    have hlt := h.tiled.lt_of_some hb
    have hpos := h.tiled.pos hb
    have hkeys := KeysFrom.of_next h.tiled hb hiterates.keys
    have hlaid : ∀ iter, TCHDB.Laid fmt { hdb with iter } H [] := fun _ => h
    cases b with
    | record r =>
      obtain ⟨trec, hread, hs⟩ := readRec_record (hlaid off) hb
      obtain ⟨-, hkbuf⟩ := shows_loadKey (hlaid (off + trec.rsiz)) hb hs
      refine ⟨r.key :: order, off + r.size fmt, fun fuel hfuel => ?_, fun _ fuel hfuel => ?_,
        List.nodup_cons.mpr ⟨fun hmem => ?_, hiterates.keys.nodup⟩, fun k => ?_⟩
      · obtain ⟨fuel, rfl⟩ : ∃ m, fuel = m + 1 := ⟨fuel - 1, by omega⟩
        rw [HdbFormat.iterNext]
        dsimp only at hread hkbuf ⊢
        rw [if_pos hlt, hread]
        dsimp only
        rw [if_pos hs.magic_eq, hkbuf, hs.rsiz_eq]
        rfl
      · refine hiterates.iterKeys ?_
        change 0 < r.size fmt at hpos
        change hdb.fsiz - (off + r.size fmt) < fuel
        omega
      · obtain ⟨x, r', hx, hr', hkey⟩ := (hiterates.keys.mem_iff r.key).mp hmem
        have hself := hdistinct hb hr' hkey.symm
        omega
      · rw [hkeys, List.mem_cons]
        exact or_congr ⟨fun hk => ⟨r, rfl, hk.symm⟩, fun ⟨r', hr', hk⟩ => by
          rw [Block.record.injEq] at hr'
          rw [← hk, hr']⟩ Iff.rfl
    | free rsiz =>
      have hread := readRec_free (hlaid off) hb
      change 0 < rsiz at hpos
      refine ⟨order, iter, fun fuel hfuel => ?_, fun hne fuel hfuel => hiterates.rest hne fuel ?_,
        hiterates.keys.nodup, fun k => ?_⟩
      · obtain ⟨fuel, rfl⟩ : ∃ m, fuel = m + 1 := ⟨fuel - 1, by omega⟩
        rw [HdbFormat.iterNext]
        dsimp only at hread ⊢
        rw [if_pos hlt, hread]
        dsimp only
        rw [if_neg (by decide)]
        exact hiterates.next fuel (by change hdb.fsiz - (off + rsiz) < fuel; omega)
      · change hdb.fsiz - (off + rsiz) ≤ fuel
        omega
      · rw [hkeys]
        exact ⟨.inr, fun hk => hk.resolve_left fun ⟨r, hr, _⟩ => by cases hr⟩
    | hole rsiz => exact (List.not_mem_nil (h.hole hb)).elim

/-- The iterator lists the keys of the map. -/
theorem Represents.keys (hv : fmt.Valid) {m : List UInt8 → Option (List UInt8)}
    {trees : Nat → BinaryTree TreeNode} (h : Represents fmt hdb m H trees) :
    (fmt.keys hdb).Nodup ∧ ∀ k, k ∈ fmt.keys hdb ↔ (m k).isSome := by
  obtain ⟨order, iter, hiterates⟩ :=
    exists_iteratesFrom h.laid (fun hr hr' hkey => h.off_eq hv hr hr' hkey) h.laid.tiled.start
  have hkeys : fmt.keys hdb = order := hiterates.iterKeys (by omega)
  rw [hkeys]
  refine ⟨hiterates.keys.nodup, fun k => ?_⟩
  rw [hiterates.keys.mem_iff, Option.isSome_iff_exists]
  constructor
  · rintro ⟨x, r, -, hr, hkey⟩
    exact ⟨r.value, (h.lookup_iff hv k r.value).mpr ⟨x, r, hr, hkey, rfl⟩⟩
  · rintro ⟨v, hkv⟩
    obtain ⟨x, r, hr, hkey, -⟩ := (h.lookup_iff hv k v).mp hkv
    exact ⟨x, r, (h.laid.tiled.inside hr).1, hr, hkey⟩

/-! ## Every run of puts -/

/-- The records of the store by the bytes of their keys. -/
def asBytes (records : Records CString) (k : List UInt8) : Option (List UInt8) :=
  if h : 0 ∈ k then none else (records.lookup ⟨k, h⟩).map CString.bytes

theorem asBytes_bytes (records : Records CString) (key : CString) :
    asBytes records key.bytes = (records.lookup key).map CString.bytes :=
  dif_neg key.nulFree

theorem asBytes_insert (records : Records CString) (key value : CString) :
    asBytes (records.insert key value) =
      Function.update (asBytes records) key.bytes (some value.bytes) := by
  funext k
  by_cases hk : k = key.bytes
  · rw [hk, Function.update_self, asBytes_bytes, Finmap.lookup_insert, Option.map_some]
  · rw [Function.update_of_ne hk]
    unfold asBytes
    split
    · rfl
    · next h =>
      have hne : (⟨k, h⟩ : CString) ≠ key := fun heq => hk (congrArg CString.bytes heq)
      rw [Finmap.lookup_insert_of_ne _ hne]

/-- The puts of a program, one after the other. -/
def HdbFormat.putAll (fmt : HdbFormat) (hdb : TCHDB) (ws : List (CString × CString)) :
    Option TCHDB :=
  ws.foldlM (fun hdb w => fmt.put hdb w.1.bytes w.2.bytes) hdb

/-- The puts on the store. -/
def Hdb.putAll (db : Hdb CString) (ws : List (CString × CString)) : Hdb CString :=
  ws.foldl (fun db w => db.put w.1 w.2) db

/-- How much the puts may add to the file. -/
def HdbFormat.putAllSize (fmt : HdbFormat) (ws : List (CString × CString)) : Nat :=
  (ws.map fun w => fmt.putSize w.1.bytes w.2.bytes).sum

theorem putAll_represents (hv : fmt.Valid) {ws : List (CString × CString)} {db : Hdb CString}
    {trees : Nat → BinaryTree TreeNode} (h : Represents fmt hdb (asBytes db.records) H trees)
    (hlt : hdb.fsiz + fmt.putAllSize ws < 2 ^ 31) :
    ∃ hdb' H' trees', fmt.putAll hdb ws = some hdb' ∧
      Represents fmt hdb' (asBytes (db.putAll ws).records) H' trees' := by
  induction ws generalizing hdb db H trees with
  | nil => exact ⟨hdb, H, trees, rfl, h⟩
  | cons w ws ih =>
    have hsum : fmt.putAllSize (w :: ws) = fmt.putSize w.1.bytes w.2.bytes + fmt.putAllSize ws := by
      unfold HdbFormat.putAllSize
      rw [List.map_cons, List.sum_cons]
    obtain ⟨hdb₁, H₁, trees₁, hput, h₁, hfsiz⟩ := h.put hv w.1.bytes w.2.bytes (by omega)
    have hdb₁ : Represents fmt hdb₁ (asBytes (db.put w.1 w.2).records) H₁ trees₁ := by
      change Represents fmt hdb₁ (asBytes (db.records.insert w.1 w.2)) H₁ trees₁
      rwa [asBytes_insert]
    obtain ⟨hdb', H', trees', hputs, h'⟩ := ih hdb₁ (by omega)
    refine ⟨hdb', H', trees', ?_, h'⟩
    unfold HdbFormat.putAll at hputs ⊢
    rw [List.foldlM_cons, hput]
    exact hputs

/-- Any run of puts into a new database. -/
theorem putAll_openNew {bnum : Nat} (hbnum : 0 < bnum) (apow fpow : Int) (large : Bool)
    (ws : List (CString × CString))
    (hsize : (HdbFormat.create bnum apow fpow large).frec +
      (HdbFormat.create bnum apow fpow large).putAllSize ws < 2 ^ 31) :
    ∃ hdb H trees, (HdbFormat.create bnum apow fpow large).putAll
        (HdbFormat.create bnum apow fpow large).openNew ws = some hdb ∧
      Represents (HdbFormat.create bnum apow fpow large) hdb
        (asBytes (Hdb.putAll ⟨.opened, ∅⟩ ws).records) H trees := by
  have hv := create_valid hbnum apow fpow large
  have hempty : asBytes (∅ : Records CString) = fun _ => none := by
    funext k
    unfold asBytes
    split
    · rfl
    · rw [Finmap.lookup_empty, Option.map_none]
  have hnew := openNew_represents hv (Nat.lt_of_le_of_lt (Nat.le_add_right _ _) hsize)
  rw [← hempty] at hnew
  exact @putAll_represents _ _ _ hv ws ⟨.opened, ∅⟩ _ hnew hsize

/-- A list of texts without NUL is one of C strings. -/
theorem exists_map_bytes {order : List (List UInt8)} (h : ∀ k ∈ order, 0 ∉ k) :
    ∃ order' : List CString, order = order'.map CString.bytes := by
  induction order with
  | nil => exact ⟨[], rfl⟩
  | cons k order ih =>
    obtain ⟨order', rfl⟩ := ih fun k hk => h k (List.mem_cons_of_mem _ hk)
    exact ⟨⟨k, h k List.mem_cons_self⟩ :: order', rfl⟩

/-- After any run of puts into a new database, small enough together for a file below
2 GiB, every `tchdbget` finds the value of the last put of the key, and the iterator
lists the keys that have been put, each once: the hash database is the store. -/
theorem hashDb_refines_hdb {bnum : Nat} (hbnum : 0 < bnum) (apow fpow : Int) (large : Bool)
    (ws : List (CString × CString))
    (hsize : (HdbFormat.create bnum apow fpow large).frec +
      (HdbFormat.create bnum apow fpow large).putAllSize ws < 2 ^ 31) :
    let fmt := HdbFormat.create bnum apow fpow large
    let db := Hdb.putAll ⟨.opened, ∅⟩ ws
    ∃ hdb, fmt.putAll fmt.openNew ws = some hdb ∧
      (∀ key : CString, fmt.get hdb key.bytes = some ((db.records.lookup key).map CString.bytes)) ∧
      ∃ order : List CString, fmt.keys hdb = order.map CString.bytes ∧ Lists order db.records := by
  have hv := create_valid hbnum apow fpow large
  obtain ⟨hdb, H, trees, hputs, h⟩ := putAll_openNew hbnum apow fpow large ws hsize
  obtain ⟨hnodup, hmem⟩ := h.keys hv
  refine ⟨hdb, hputs, fun key => ?_, ?_⟩
  · rw [h.get hv, asBytes_bytes]
  · obtain ⟨order, horder⟩ := exists_map_bytes fun k hk hnul => by
      have hsome := (hmem k).mp hk
      unfold asBytes at hsome
      rw [dif_pos hnul] at hsome
      cases hsome
    refine ⟨order, horder, ?_, fun key => ?_⟩
    · rw [horder] at hnodup
      exact hnodup.of_map _
    · have hkey := hmem key.bytes
      rw [horder, List.mem_map_of_injective CString.bytes_injective, asBytes_bytes,
        Option.isSome_map, Finmap.lookup_isSome] at hkey
      exact hkey

/-- A value replaced by one that does not fit its record: the record moves. -/
def replacingPuts : List (CString × CString) :=
  [(.ofLiteral "a", .ofLiteral "1"), (.ofLiteral "b", .ofLiteral "2"),
    (.ofLiteral "a", .ofLiteral "a value that is longer than the padding of its record")]

theorem refines_replacingPuts : 0 < 7 ∧ ∃ hdb,
    (HdbFormat.create 7 (-1) (-1) true).putAll (HdbFormat.create 7 (-1) (-1) true).openNew
        replacingPuts = some hdb ∧
      (HdbFormat.create 7 (-1) (-1) true).get hdb (CString.ofLiteral "b").bytes =
        some (some (CString.ofLiteral "2").bytes) := by
  have hbnum : 0 < 7 := by decide
  obtain ⟨hdb, hputs, hget, -⟩ := hashDb_refines_hdb hbnum (-1) (-1) true replacingPuts (by decide)
  have hlookup : (Hdb.putAll ⟨.opened, ∅⟩ replacingPuts).records.lookup (.ofLiteral "b") =
      some (.ofLiteral "2") := by decide
  exact ⟨hbnum, hdb, hputs, by rw [hget, hlookup, Option.map_some]⟩

/-- After any such run records and free blocks tile the file from its first record
on, the pool holds runs of free blocks apart from each other, and the records are
those of the store: every key has exactly one, with its value. -/
theorem layout_of_puts {bnum : Nat} (hbnum : 0 < bnum) (apow fpow : Int) (large : Bool)
    (ws : List (CString × CString))
    (hsize : (HdbFormat.create bnum apow fpow large).frec +
      (HdbFormat.create bnum apow fpow large).putAllSize ws < 2 ^ 31) :
    let fmt := HdbFormat.create bnum apow fpow large
    ∃ hdb H, fmt.putAll fmt.openNew ws = some hdb ∧ hdb.Laid fmt H [] ∧
      (∀ k v, asBytes (Hdb.putAll ⟨.opened, ∅⟩ ws).records k = some v ↔
        ∃ off r, H off = some (.record r) ∧ r.key = k ∧ r.value = v) ∧
      ∀ x y r r', H x = some (.record r) → H y = some (.record r') → r.key = r'.key → x = y := by
  have hv := create_valid hbnum apow fpow large
  obtain ⟨hdb, H, trees, hputs, h⟩ := putAll_openNew hbnum apow fpow large ws hsize
  exact ⟨hdb, H, hputs, h.laid, h.lookup_iff hv,
    fun x y r r' hr hr' hkey => h.off_eq hv hr hr' hkey⟩

theorem layout_replacingPuts : 0 < 7 ∧ ∃ hdb H,
    (HdbFormat.create 7 (-1) (-1) true).putAll (HdbFormat.create 7 (-1) (-1) true).openNew
        replacingPuts = some hdb ∧
      hdb.Laid (HdbFormat.create 7 (-1) (-1) true) H [] := by
  have hbnum : 0 < 7 := by decide
  obtain ⟨hdb, H, hputs, hlaid, -⟩ := layout_of_puts hbnum (-1) (-1) true replacingPuts (by decide)
  exact ⟨hbnum, hdb, H, hputs, hlaid⟩

end Meguro
