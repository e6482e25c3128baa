import Meguro.HashDb.Linking

/-!
# What a database file stands for

A database represents a map from keys to values: its file is laid out without
holes, the records of every bucket are linked to an ordered tree, and no record is
outside these trees. `tchdbput` updates the map and `tchdbget` looks it up.
-/

namespace Meguro

open ByteFile Tiling SearchTree

/-- The database stands for the map `m`. -/
structure Represents (fmt : HdbFormat) (hdb : TCHDB) (m : List UInt8 → Option (List UInt8))
    (H : Nat → Option Block) (trees : Nat → BinaryTree TreeNode) : Prop where
  laid : hdb.Laid fmt H []
  linked : ∀ i < fmt.bnum, Linked H (fmt.getBucket hdb i) (trees i)
  ordered : ∀ i, Ordered keyCmp TreeNode.key (trees i)
  bucket : ∀ i, ∀ n ∈ nodes (trees i), fmt.bidx n.key = i
  numNodes : ∀ i, (trees i).numNodes ≤ hdb.rnum
  complete : ∀ {off r}, H off = some (.record r) → ∃ n ∈ nodes (trees (fmt.bidx r.key)), n.off = off
  lookup : ∀ k v, m k = some v ↔ ∃ n ∈ nodes (trees (fmt.bidx k)), n.key = k ∧ n.value = v

variable {fmt : HdbFormat} {hdb hdb' : TCHDB} {m : List UInt8 → Option (List UInt8)}
  {H K : Nat → Option Block} {trees : Nat → BinaryTree TreeNode} {key value : List UInt8}

theorem bidx_lt (hv : fmt.Valid) (kbuf : List UInt8) : fmt.bidx kbuf < fmt.bnum :=
  Nat.mod_lt _ hv.bnum_pos

/-! ## The records -/

/-- Every record of the file is a node of the tree of its bucket. -/
theorem Represents.exists_node (hv : fmt.Valid) (h : Represents fmt hdb m H trees) {off : Nat}
    {r : StoredRecord} (hr : H off = some (.record r)) :
    ∃ n ∈ nodes (trees (fmt.bidx r.key)), n.off = off ∧ n.key = r.key ∧ n.value = r.value := by
  obtain ⟨n, hn, rfl⟩ := h.complete hr
  obtain ⟨-, rec, hrec, hkey, hvalue, -⟩ := (h.linked _ (bidx_lt hv _)).mem hn
  rw [hr, Option.some.injEq, Block.record.injEq] at hrec
  exact ⟨n, hn, rfl, by rw [hrec, hkey], by rw [hrec, hvalue]⟩

/-- The records of the file are the entries of the map. -/
theorem Represents.lookup_iff (hv : fmt.Valid) (h : Represents fmt hdb m H trees)
    (k v : List UInt8) :
    m k = some v ↔ ∃ off r, H off = some (.record r) ∧ r.key = k ∧ r.value = v := by
  rw [h.lookup k v]
  constructor
  · rintro ⟨n, hn, rfl, rfl⟩
    obtain ⟨-, rec, hrec, hkey, hvalue, -⟩ := (h.linked _ (bidx_lt hv _)).mem hn
    exact ⟨n.off, rec, hrec, hkey, hvalue⟩
  · rintro ⟨off, r, hr, rfl, rfl⟩
    obtain ⟨n, hn, -, hkey, hvalue⟩ := h.exists_node hv hr
    exact ⟨n, hn, hkey, hvalue⟩

/-- No key has two records. -/
theorem Represents.off_eq (hv : fmt.Valid) (h : Represents fmt hdb m H trees) {x y : Nat}
    {r r' : StoredRecord} (hr : H x = some (.record r)) (hr' : H y = some (.record r'))
    (hkey : r.key = r'.key) : x = y := by
  obtain ⟨n, hn, rfl, hnkey, -⟩ := h.exists_node hv hr
  obtain ⟨n', hn', rfl, hnkey', -⟩ := h.exists_node hv hr'
  rw [← hkey] at hn' hnkey'
  rw [(h.ordered _).eq_of_key_eq keyCmp_eq_iff hn hn' (hnkey.trans hnkey'.symm)]

/-! ## Looking up a key -/

/-- `tchdbget` gives the value of the map. -/
theorem Represents.get (hv : fmt.Valid) (h : Represents fmt hdb m H trees) (key : List UInt8) :
    fmt.get hdb key = some (m key) := by
  have hi := bidx_lt hv key
  have hl := h.linked _ hi
  obtain ⟨link, sub, hleads⟩ := exists_leads keyCmp TreeNode.key key (trees (fmt.bidx key))
  unfold HdbFormat.get HdbFormat.getImpl
  rcases searchTree_spec h.laid hleads hl (h.numNodes _) 0 with
    ⟨rfl, hsearch⟩ | ⟨n, l, r, rec, trec, rfl, hrec, hkey, hvalue, -, -, hs, hsearch⟩
  · rw [hsearch]
    have hnone : m key = none := by
      by_contra hne
      obtain ⟨v, hv⟩ := Option.ne_none_iff_exists'.mp hne
      obtain ⟨n, hn, hnkey, -⟩ := (h.lookup key v).mp hv
      exact hleads.key_ne keyCmp_eq_iff (h.ordered _) n hn hnkey
    rw [hnone]
    rfl
  · rw [hsearch]
    have hnkey : key = n.key := (keyCmp_eq_iff _ _).mp hleads.root_eq
    have hsome : m key = some n.value := (h.lookup key n.value).mpr
      ⟨n, hleads.mem.1 n (root_mem rfl), hnkey.symm, rfl⟩
    rw [hsome, ← hvalue]
    exact congrArg some (vbuf_loadValue h.laid hrec hs)

/-! ## Putting a record -/

/-- The blocks `K` are the blocks `H` after a new record has been put at `off` for the
subtree `sub` and linked to where `link` says; the root of `sub` has gone. -/
structure Attached (H : Nat → Option Block) (K : Nat → Option Block) (sub : BinaryTree TreeNode)
    (link : Option (TreeNode × Side)) (off : Nat) (r : StoredRecord) : Prop where
  new : K off = some (.record r)
  keep : ∀ x rec, H x = some (.record rec) → (∀ n l r, sub = .node n l r → n.off ≠ x) →
    x ≠ off ∧ ((∀ p ∈ link, x ≠ p.1.off) → K x = some (.record rec)) ∧
      ∀ p ∈ link, x = p.1.off → K x = some (.record (rec.setLink p.2 off))
  back : ∀ x rec, K x = some (.record rec) → x = off ∧ rec = r ∨
    (∀ n l r, sub = .node n l r → n.off ≠ x) ∧
      ∃ rec', H x = some (.record rec') ∧ rec'.key = rec.key

/-- The links of the new record are those of the root of the subtree. -/
def Inherits (H : Nat → Option Block) (r : StoredRecord) : BinaryTree TreeNode → Prop
  | .nil => r.left = 0 ∧ r.right = 0
  | .node _ left right => Linked H r.left left ∧ Linked H r.right right

section Attach

variable {sub : BinaryTree TreeNode} {link : Option (TreeNode × Side)} {off : Nat}
  {r : StoredRecord}
  (hv : fmt.Valid) (h : Represents fmt hdb m H trees)
  (hleads : Leads keyCmp TreeNode.key key (trees (fmt.bidx key)) link sub)
include hv h hleads

/-- A node that is not the root of the subtree lies elsewhere. -/
theorem Represents.off_ne_root {i : Nat} (hi : i < fmt.bnum) {b : TreeNode}
    (hb : b ∈ nodes (trees i))
    (hne : ∀ l r, sub ≠ .node b l r) (n : TreeNode) (l r : BinaryTree TreeNode)
    (hsub : sub = .node n l r) : n.off ≠ b.off := by
  intro hoff
  have hn := hleads.mem.1 n (root_mem hsub)
  have hnb := (h.linked _ (bidx_lt hv key)).eq_of_off_eq (h.linked i hi) hn hb hoff
  exact hne l r (hnb ▸ hsub)

variable (hatt : Attached H K sub link off r)
include hatt

/-- Nodes stay, but for the root of the subtree and the one with the new link. -/
theorem Represents.kept {i : Nat} (hi : i < fmt.bnum) {b : TreeNode} (hb : b ∈ nodes (trees i))
    (hne : ∀ l r, sub ≠ .node b l r) (hbp : ∀ p ∈ link, b ≠ p.1) (rec : StoredRecord)
    (hrec : H b.off = some (.record rec)) : K b.off = some (.record rec) := by
  refine (hatt.keep b.off rec hrec (h.off_ne_root hv hleads hi hb hne)).2.1 fun p hp hoff =>
    hbp p hp ?_
  exact (h.linked i hi).eq_of_off_eq (h.linked _ (bidx_lt hv key)) hb (hleads.mem.2 p hp) hoff

variable (hoff : 0 < off) (hkey : r.key = key) (hvalue : r.value = value)
  (hhash : r.hash = secondHash key) (hinherits : Inherits H r sub)
include hoff hkey hvalue hhash hinherits

/-- The new record is the root of the subtree. -/
theorem Represents.linked_sub :
    Linked K off (SearchTree.put keyCmp TreeNode.key ⟨off, key, value⟩ sub) := by
  obtain ⟨hnodup, hpsub⟩ := hleads.apart ((h.ordered _).nodup keyCmp_eq_iff)
  have hchild : ∀ {x t}, Linked H x t →
      (∀ b ∈ nodes t, b ∈ nodes sub ∧ ∀ l r, sub ≠ .node b l r) → Linked K x t := by
    intro x t hx ht
    refine hx.congr fun b hb => h.kept hv hleads hatt (bidx_lt hv key)
      (hleads.mem.1 b (ht b hb).1) (ht b hb).2 fun p hp hbp => ?_
    exact hpsub p hp (hbp ▸ (ht b hb).1)
  cases sub with
  | nil =>
    obtain ⟨hleft, hright⟩ := hinherits
    exact ⟨rfl, hoff, r, hatt.new, hkey, hvalue, hhash, hleft, hright⟩
  | node n left right =>
    obtain ⟨hleft, hright⟩ := hinherits
    obtain ⟨hnmem, -⟩ := List.nodup_cons.mp hnodup
    have heq : keyCmp key n.key = .eq := hleads.root_eq
    simp only [SearchTree.put, heq]
    refine ⟨rfl, hoff, r, hatt.new, hkey, hvalue, hhash, hchild hleft fun b hb => ?_,
      hchild hright fun b hb => ?_⟩
    · refine ⟨mem_nodes_node.mpr (.inr (.inl hb)), fun l r hbn => hnmem ?_⟩
      rw [BinaryTree.node.injEq] at hbn
      exact hbn.1 ▸ List.mem_append_left _ hb
    · refine ⟨mem_nodes_node.mpr (.inr (.inr hb)), fun l r hbn => hnmem ?_⟩
      rw [BinaryTree.node.injEq] at hbn
      exact hbn.1 ▸ List.mem_append_right _ hb

/-- The tree of the bucket is the one a `put` makes. -/
theorem Represents.linked_put :
    Linked K (link.elim off fun _ => fmt.getBucket hdb (fmt.bidx key))
      (SearchTree.put keyCmp TreeNode.key ⟨off, key, value⟩ (trees (fmt.bidx key))) := by
  have hi := bidx_lt hv key
  have hnodup := (h.ordered (fmt.bidx key)).nodup keyCmp_eq_iff
  refine @Linked.put H K _ _ sub link ⟨off, key, value⟩ hleads (h.linked _ hi) hnodup
    (h.linked_sub hv hleads hatt hoff hkey hvalue hhash hinherits) ?_ ?_
  · intro b hb hbp hns
    exact h.kept hv hleads hatt hi hb (fun l r hsub => hns (root_mem hsub)) hbp
  · intro p hp rec hrec
    have hpne : ∀ l r, sub ≠ .node p.1 l r := fun l r hsub =>
      (hleads.apart hnodup).2 p hp (root_mem hsub)
    exact (hatt.keep p.1.off rec hrec
      (h.off_ne_root hv hleads hi (hleads.mem.2 p hp) hpne)).2.2 p hp rfl

/-- A record that has been put and linked is the value of its key. -/
theorem Represents.attach (hlaid : hdb'.Laid fmt K [])
    (hself : fmt.getBucket hdb' (fmt.bidx key) =
      link.elim off fun _ => fmt.getBucket hdb (fmt.bidx key))
    (hothers : ∀ i < fmt.bnum, i ≠ fmt.bidx key → fmt.getBucket hdb' i = fmt.getBucket hdb i)
    (hrnum : hdb.rnum + (SearchTree.put keyCmp TreeNode.key ⟨off, key, value⟩ sub).numNodes ≤
      hdb'.rnum + sub.numNodes) (hle : hdb.rnum ≤ hdb'.rnum) :
    Represents fmt hdb' (Function.update m key (some value)) K
      (Function.update trees (fmt.bidx key)
        (SearchTree.put keyCmp TreeNode.key ⟨off, key, value⟩ (trees (fmt.bidx key)))) := by
  have hordered := h.ordered (fmt.bidx key)
  have htree := h.linked_put hv hleads hatt hoff hkey hvalue hhash hinherits
  generalize hnew : (⟨off, key, value⟩ : TreeNode) = new at hrnum htree ⊢
  have hnewkey : new.key = key := by rw [← hnew]
  have hmemput : ∀ b, b ∈ nodes (SearchTree.put keyCmp TreeNode.key new (trees (fmt.bidx key))) ↔
      b = new ∨ b ∈ nodes (trees (fmt.bidx key)) ∧ b.key ≠ key := by
    intro b
    rw [mem_put keyCmp_eq_iff hordered, hnewkey]
  refine ⟨hlaid, ?_, ?_, ?_, ?_, ?_, ?_⟩
  · intro i hi'
    by_cases hiw : i = fmt.bidx key
    · rw [hiw, Function.update_self, hself]
      exact htree
    · rw [Function.update_of_ne hiw, hothers i hi' hiw]
      have hbucket : ∀ b ∈ nodes (trees i), b ∉ nodes (trees (fmt.bidx key)) := fun b hb hb' =>
        hiw ((h.bucket i b hb).symm.trans (h.bucket _ b hb'))
      refine (h.linked i hi').congr fun b hb => h.kept hv hleads hatt hi' hb
        (fun l r hsub => ?_) fun p hp hbp => ?_
      · exact hbucket b hb (hleads.mem.1 b (root_mem hsub))
      · exact hbucket b hb (hbp ▸ hleads.mem.2 p hp)
  · intro i
    by_cases hiw : i = fmt.bidx key
    · rw [hiw, Function.update_self]
      exact hordered.put keyCmp_eq_iff new
    · rw [Function.update_of_ne hiw]
      exact h.ordered i
  · intro i b hb
    by_cases hiw : i = fmt.bidx key
    · rw [hiw, Function.update_self, hmemput] at hb
      rcases hb with rfl | ⟨hb, -⟩
      · rw [hnewkey, hiw]
      · rw [hiw]
        exact h.bucket _ b hb
    · rw [Function.update_of_ne hiw] at hb
      exact h.bucket i b hb
  · intro i
    by_cases hiw : i = fmt.bidx key
    · have hput : (SearchTree.put keyCmp TreeNode.key new (trees (fmt.bidx key))).numNodes +
          sub.numNodes = (trees (fmt.bidx key)).numNodes +
            (SearchTree.put keyCmp TreeNode.key new sub).numNodes := by
        refine @Leads.numNodes_put _ _ _ _ _ _ link _ ?_
        rw [hnewkey]
        exact hleads
      have hnum := h.numNodes (fmt.bidx key)
      rw [hiw, Function.update_self]
      omega
    · rw [Function.update_of_ne hiw]
      exact (h.numNodes i).trans hle
  · intro x rec hrec
    rcases hatt.back x rec hrec with ⟨rfl, rfl⟩ | ⟨hgone, rec', hrec', hkey'⟩
    · refine ⟨new, ?_, by rw [← hnew]⟩
      rw [hkey, Function.update_self, hmemput]
      exact .inl rfl
    · obtain ⟨b, hb, hbx⟩ := h.complete hrec'
      rw [hkey'] at hb
      by_cases hiw : fmt.bidx rec.key = fmt.bidx key
      · rw [hiw] at hb ⊢
        refine ⟨b, ?_, hbx⟩
        rw [Function.update_self, hmemput]
        refine .inr ⟨hb, fun hbkey => ?_⟩
        have hleads' : Leads keyCmp TreeNode.key b.key (trees (fmt.bidx key)) link sub := by
          rw [hbkey]
          exact hleads
        obtain ⟨l, r, hsub⟩ := hleads'.eq_node keyCmp_eq_iff hordered hb
        exact hgone b l r hsub hbx
      · exact ⟨b, by rwa [Function.update_of_ne hiw], hbx⟩
  · intro k v
    by_cases hk : k = key
    · rw [hk, Function.update_self, Function.update_self]
      refine ⟨fun hval => ⟨new, (hmemput new).mpr (.inl rfl), hnewkey, ?_⟩, ?_⟩
      · rw [← hnew]
        exact Option.some.inj hval
      · rintro ⟨b, hb, hbkey, rfl⟩
        rcases (hmemput b).mp hb with rfl | ⟨-, hne⟩
        · rw [← hnew]
        · exact (hne hbkey).elim
    · rw [Function.update_of_ne hk, h.lookup k v]
      by_cases hiw : fmt.bidx k = fmt.bidx key
      · rw [hiw, Function.update_self]
        refine exists_congr fun b => ?_
        rw [hmemput]
        constructor
        · rintro ⟨hb, hbkey, hbv⟩
          exact ⟨.inr ⟨hb, hbkey ▸ hk⟩, hbkey, hbv⟩
        · rintro ⟨rfl | ⟨hb, -⟩, hbkey, hbv⟩
          · exact (hk (hbkey.symm.trans hnewkey)).elim
          · exact ⟨hb, hbkey, hbv⟩
      · rw [Function.update_of_ne hiw]

end Attach

/-- What is left of the records when that of the root of a subtree is to be replaced. -/
def Cleared (H H' : Nat → Option Block) (sub : BinaryTree TreeNode) : Prop :=
  ∀ x rec, H' x = some (.record rec) ↔
    H x = some (.record rec) ∧ ∀ n l r, sub = .node n l r → n.off ≠ x

/-- The link to a record that has been placed is set. -/
theorem Placed.attach (hv : fmt.Valid) {H' : Nat → Option Block} {mid : TCHDB} {off root bidx : Nat}
    {r : StoredRecord} (hplaced : Placed fmt hdb H' mid K off r) (hbidx : bidx < fmt.bnum)
    {t sub : BinaryTree TreeNode} {link : Option (TreeNode × Side)} (hl : Linked H root t)
    (hleads : Leads keyCmp TreeNode.key key t link sub) (hnodup : (nodes t).Nodup)
    (hcleared : Cleared H H' sub) :
    ∃ K', (fmt.setEntry mid bidx (entryOff fmt 0 link) off).Laid fmt K' [] ∧
      Attached H K' sub link off r ∧ 0 < off ∧
      fmt.getBucket (fmt.setEntry mid bidx (entryOff fmt 0 link) off) bidx =
        link.elim off (fun _ => fmt.getBucket hdb bidx) ∧
      ∀ i < fmt.bnum, i ≠ bidx →
        fmt.getBucket (fmt.setEntry mid bidx (entryOff fmt 0 link) off) i =
          fmt.getBucket hdb i := by
  have hlaid := hplaced.laid
  have haligned : fmt.align ∣ off := hlaid.aligned (.inr ⟨_, hplaced.new⟩)
  have hlt : off < 2 ^ 31 := (hlaid.tiled.lt_of_some hplaced.new).trans hlaid.fsiz_lt
  have hoff : 0 < off := by
    have hmsiz := hv.msiz_le
    have hlo := (hlaid.tiled.inside hplaced.new).1
    unfold HdbFormat.msiz hdbHeadSiz at hmsiz
    omega
  have hne : ∀ {x rec}, H' x = some (.record rec) → x ≠ off := by
    rintro x rec hx rfl
    exact hplaced.fresh rec hx
  have hkept : ∀ {x rec}, H' x = some (.record rec) → K x = some (.record rec) := fun hx =>
    (hplaced.records _ _ (hne hx)).mpr hx
  have hback : ∀ {x rec}, K x = some (.record rec) → x = off ∧ rec = r ∨
      H' x = some (.record rec) := by
    intro x rec hx
    by_cases hself : x = off
    · rw [hself, hplaced.new, Option.some.injEq, Block.record.injEq] at hx
      exact .inl ⟨hself, hx.symm⟩
    · exact .inr ((hplaced.records x rec hself).mp hx)
  cases link with
  | none =>
    obtain ⟨hset, hself, hothers⟩ := setEntry_bucket hv hlaid hbidx haligned hlt
    refine ⟨K, hset, ⟨hplaced.new, fun x rec hx hgone => ?_, fun x rec hx => ?_⟩, hoff, hself,
      fun i hi hib => (hothers i hi hib).trans (getBucket_congr hv hi hplaced.buckets)⟩
    · have hx' := (hcleared x rec).mpr ⟨hx, hgone⟩
      exact ⟨hne hx', fun _ => hkept hx', nofun⟩
    · rcases hback hx with hnew | hx
      · exact .inl hnew
      · obtain ⟨hx, hgone⟩ := (hcleared x rec).mp hx
        exact .inr ⟨hgone, rec, hx, rfl⟩
  | some p =>
    obtain ⟨n, side⟩ := p
    have hn : n ∈ nodes t := hleads.mem.2 (n, side) rfl
    have hnsub : n ∉ nodes sub := (hleads.apart hnodup).2 (n, side) rfl
    obtain ⟨-, recn, hrecn, -⟩ := hl.mem hn
    have hngone : ∀ n' l r, sub = .node n' l r → n'.off ≠ n.off := by
      intro n' l r hsub hoff'
      have hn' : n' ∈ nodes sub := root_mem hsub
      exact hnsub (hl.eq_of_off_eq hl (hleads.mem.1 n' hn') hn hoff' ▸ hn')
    have hrecn' := (hcleared n.off recn).mpr ⟨hrecn, hngone⟩
    obtain ⟨hset, hfile⟩ :=
      @setEntry_node fmt mid K [] hlaid n recn (hkept hrecn') side bidx off haligned hlt
    have hbuckets : ∀ i < fmt.bnum,
        fmt.getBucket (fmt.setEntry mid bidx (entryOff fmt 0 (some (n, side))) off) i =
          fmt.getBucket hdb i := fun i hi =>
      getBucket_congr hv hi fun j hj hlt => (hfile j hlt).trans (hplaced.buckets j hj hlt)
    refine ⟨_, hset, ⟨?_, fun x rec hx hgone => ?_, fun x rec hx => ?_⟩, hoff, hbuckets bidx hbidx,
      fun i hi _ => hbuckets i hi⟩
    · rw [Function.update_of_ne (hne hrecn').symm, hplaced.new]
    · have hx' := (hcleared x rec).mpr ⟨hx, hgone⟩
      refine ⟨hne hx', fun hp => ?_, fun p hp hxp => ?_⟩
      · rw [Function.update_of_ne (hp (n, side) rfl), hkept hx']
      · obtain rfl : (n, side) = p := Option.some.inj hp
        obtain rfl : x = n.off := hxp
        rw [hrecn, Option.some.injEq, Block.record.injEq] at hx
        rw [Function.update_self, hx]
    · by_cases hxn : x = n.off
      · rw [hxn, Function.update_self, Option.some.injEq, Block.record.injEq] at hx
        refine .inr ⟨hxn ▸ hngone, recn, hxn ▸ hrecn, ?_⟩
        rw [← hx, StoredRecord.setLink_key]
      · rw [Function.update_of_ne hxn] at hx
        rcases hback hx with hnew | hx
        · exact .inl hnew
        · obtain ⟨hx, hgone⟩ := (hcleared x rec).mp hx
          exact .inr ⟨hgone, rec, hx, rfl⟩

/-- How much a `tchdbput` may add to the file. -/
def HdbFormat.putSize (fmt : HdbFormat) (key value : List UInt8) : Nat :=
  key.length + value.length + fmt.align + 30

/-- `tchdbput` of a key the database does not have. -/
theorem Represents.putMissing (hv : fmt.Valid) (h : Represents fmt hdb m H trees)
    (hlt : hdb.fsiz + fmt.putSize key value < 2 ^ 31) {link : Option (TreeNode × Side)}
    (hleads : Leads keyCmp TreeNode.key key (trees (fmt.bidx key)) link .nil)
    (hsearch : fmt.searchTree hdb key (secondHash key) hdb.rnum
      (fmt.getBucket hdb (fmt.bidx key)) 0 = some (.missing (entryOff fmt 0 link))) :
    ∃ hdb' H' trees', fmt.put hdb key value = some hdb' ∧
      Represents fmt hdb' (Function.update m key (some value)) H' trees' ∧
      hdb'.fsiz ≤ hdb.fsiz + fmt.putSize key value := by
  have hi := bidx_lt hv key
  unfold HdbFormat.putSize at hlt ⊢
  have hhint : 5 ≤ fmt.recSizeHint key.length value.length := by
    have hlink := fmt.linkSiz_eq
    unfold HdbFormat.recSizeHint
    dsimp only
    omega
  obtain ⟨hdb₁, H₁, holes, off₁, rsiz₁, hfound, hlaid₁, hkeeps, hroom, -⟩ := fbpSearch_spec h.laid
    { TCHREC.at 0 with rsiz := fmt.recSizeHint key.length value.length } hhint
  have hcarries : TCHREC.Carries
      { TCHREC.at 0 with
        off := off₁, rsiz := rsiz₁, hash := secondHash key, ksiz := key.length, vsiz := value.length
        kbuf := some key, vbuf := some value } fmt key value :=
    ⟨rfl, rfl, rfl, rfl, Nat.dvd_zero _, Nat.dvd_zero _, Nat.two_pow_pos 31,
      Nat.two_pow_pos 31⟩
  have hneed := hcarries.need_le (by omega) (by omega)
  have hfsiz := hkeeps.fsiz
  obtain ⟨mid, K, off, psiz, hresult, hplaced, hmid⟩ :=
    writeRec_spec hv hlaid₁ hcarries hroom (by omega) 1 (fmt.bidx key) (entryOff fmt 0 link)
  have hcleared : Cleared H H₁ .nil := fun x rec =>
    ⟨fun hx => ⟨(hkeeps.records x rec).mp hx, nofun⟩, fun hx => (hkeeps.records x rec).mpr hx.1⟩
  obtain ⟨K', hlaid', hatt, hoff, hself, hothers⟩ := (hplaced.of_keeps hkeeps).attach hv hi
    (h.linked _ hi) hleads ((h.ordered _).nodup keyCmp_eq_iff)
    fun x rec => ⟨fun hx => ⟨hx, nofun⟩, fun hx => hx.1⟩
  generalize hend : fmt.setEntry mid (fmt.bidx key) (entryOff fmt 0 link) off = last at *
  have hrnum : last.rnum = hdb.rnum := by
    rw [← hend]
    exact hplaced.rnum.trans hkeeps.rnum
  have hlast : last.fsiz = mid.fsiz := by
    rw [← hend]
    rfl
  have hhead : hdbRnumOff + (leBytes 8 (last.rnum + 1)).length ≤ hdbHeadSiz := by
    rw [length_leBytes]
    decide
  have hbehind : ∀ i, hdbHeadSiz ≤ i →
      last.file.write hdbRnumOff (leBytes 8 (last.rnum + 1)) i = last.file i := fun i hle =>
    write_of_le (hhead.trans hle)
  have hbuckets : ∀ i < fmt.bnum, fmt.getBucket
      { last with
        rnum := last.rnum + 1, file := last.file.write hdbRnumOff (leBytes 8 (last.rnum + 1)) } i =
        fmt.getBucket last i := fun i hi => getBucket_congr hv hi fun j hj _ => hbehind j hj
  refine ⟨{ last with
      rnum := last.rnum + 1, file := last.file.write hdbRnumOff (leBytes 8 (last.rnum + 1)) },
    K', _, ?_, h.attach hv hleads hatt hoff rfl rfl rfl ⟨rfl, rfl⟩ (hlaid'.of_file fun i hle => ?_)
      ((hbuckets _ hi).trans hself) (fun i hi hne => (hbuckets i hi).trans (hothers i hi hne))
      ?_ ?_, ?_⟩
  · unfold HdbFormat.put HdbFormat.putImpl
    rw [hsearch]
    simp only [Option.bind_eq_bind, Option.bind_some, hfound]
    rw [show (3 : Nat) = 1 + 2 from rfl]
    exact congrArg (Option.bind · _) hresult
  · exact hbehind i (((Nat.le_add_right _ _).trans hv.msiz_le).trans hle)
  · change hdb.rnum + 1 ≤ last.rnum + 1 + 0
    omega
  · change hdb.rnum ≤ last.rnum + 1
    omega
  · change last.fsiz ≤ _
    omega

/-- `tchdbput` of a key the database has. -/
theorem Represents.putFound (hv : fmt.Valid) (h : Represents fmt hdb m H trees)
    (hlt : hdb.fsiz + fmt.putSize key value < 2 ^ 31) {link : Option (TreeNode × Side)}
    {n : TreeNode} {left right : BinaryTree TreeNode} {rec : StoredRecord} {trec : TCHREC}
    (hleads : Leads keyCmp TreeNode.key key (trees (fmt.bidx key)) link (.node n left right))
    (hrec : H n.off = some (.record rec)) (hleft : Linked H rec.left left)
    (hright : Linked H rec.right right) (hs : trec.Shows fmt n.off rec)
    (hsearch : fmt.searchTree hdb key (secondHash key) hdb.rnum
      (fmt.getBucket hdb (fmt.bidx key)) 0 = some (.found trec (entryOff fmt 0 link))) :
    ∃ hdb' H' trees', fmt.put hdb key value = some hdb' ∧
      Represents fmt hdb' (Function.update m key (some value)) H' trees' ∧
      hdb'.fsiz ≤ hdb.fsiz + fmt.putSize key value := by
  have hi := bidx_lt hv key
  unfold HdbFormat.putSize at hlt ⊢
  have hfits : rec.Fits fmt := h.laid.fits hrec
  have hnkey : key = n.key := (keyCmp_eq_iff _ _).mp hleads.root_eq
  obtain ⟨-, rec', hrec', -, -, hhash⟩ :=
    (h.linked _ hi).mem (hleads.mem.1 n (root_mem rfl))
  rw [hrec, Option.some.injEq, Block.record.injEq] at hrec'
  have hcarries : TCHREC.Carries
      { trec with ksiz := key.length, vsiz := value.length, kbuf := some key, vbuf := some value }
      fmt key value :=
    ⟨rfl, rfl, rfl, rfl, hs.left_eq ▸ hfits.left_aligned, hs.right_eq ▸ hfits.right_aligned,
      hs.left_eq ▸ hfits.left_lt, hs.right_eq ▸ hfits.right_lt⟩
  have hneed := hcarries.need_le (by omega) (by omega)
  -- the old record makes room
  have hsize : 5 ≤ rec.size fmt := Block.five_le_size (h.laid.fits hrec)
  have hlaid₁ : hdb.Laid fmt (Function.update H n.off (some (.hole (rec.size fmt)))) [n.off] :=
    h.laid.update hrec (fun hfree => hfree) rfl hsize (fun _ _ _ => rfl) (has_nil _ _)
      (fun x hx => (List.not_mem_nil hx).elim) fun _ _ => List.mem_cons_self
  have hroom : Room hdb (Function.update H n.off (some (.hole (rec.size fmt)))) [n.off] trec.off
      trec.rsiz := by
    rw [hs.off_eq, hs.rsiz_eq]
    exact .inr ⟨Function.update_self .., rfl⟩
  obtain ⟨mid, K, off, psiz, hresult, hplaced, hmid⟩ :=
    writeRec_spec hv hlaid₁ hcarries hroom (by omega) 1 (fmt.bidx key) (entryOff fmt 0 link)
  have hcleared : Cleared H (Function.update H n.off (some (.hole (rec.size fmt))))
      (.node n left right) := by
    intro x rec'
    by_cases hx : x = n.off
    · rw [hx, Function.update_self]
      exact ⟨nofun, fun hr => (hr.2 n left right rfl rfl).elim⟩
    · rw [Function.update_of_ne hx]
      refine ⟨fun hr => ⟨hr, fun n' l r hn' hoff' => hx ?_⟩, fun hr => hr.1⟩
      rw [BinaryTree.node.injEq] at hn'
      rw [← hoff', hn'.1]
  obtain ⟨K', hlaid', hatt, hoff, hself, hothers⟩ := hplaced.attach hv hi (h.linked _ hi) hleads
    ((h.ordered _).nodup keyCmp_eq_iff) hcleared
  have heq : keyCmp key n.key = .eq := hleads.root_eq
  refine ⟨_, K', _, ?_, h.attach hv hleads hatt hoff rfl rfl ?_ ?_ hlaid' hself hothers ?_ ?_, ?_⟩
  · unfold HdbFormat.put HdbFormat.putImpl
    rw [hsearch]
    exact hresult
  · change trec.hash = secondHash key
    rw [hs.hash_eq, hrec', hhash, hnkey]
  · change Linked H trec.left left ∧ Linked H trec.right right
    rw [hs.left_eq, hs.right_eq]
    exact ⟨hleft, hright⟩
  · simp only [SearchTree.put, heq, BinaryTree.numNodes]
    exact Nat.le_of_eq (congrArg (· + _) hplaced.rnum.symm)
  · exact Nat.le_of_eq hplaced.rnum.symm
  · change mid.fsiz ≤ _
    omega

/-- `tchdbput` updates the map. -/
theorem Represents.put (hv : fmt.Valid) (h : Represents fmt hdb m H trees) (key value : List UInt8)
    (hlt : hdb.fsiz + fmt.putSize key value < 2 ^ 31) :
    ∃ hdb' H' trees', fmt.put hdb key value = some hdb' ∧
      Represents fmt hdb' (Function.update m key (some value)) H' trees' ∧
      hdb'.fsiz ≤ hdb.fsiz + fmt.putSize key value := by
  have hl := h.linked _ (bidx_lt hv key)
  obtain ⟨link, sub, hleads⟩ := exists_leads keyCmp TreeNode.key key (trees (fmt.bidx key))
  rcases searchTree_spec h.laid hleads hl (h.numNodes _) 0 with
    ⟨rfl, hsearch⟩ | ⟨n, l, r, rec, trec, rfl, hrec, -, -, hleft, hright, hs, hsearch⟩
  · exact h.putMissing hv hlt hleads hsearch
  · exact h.putFound hv hlt hleads hrec hleft hright hs hsearch

end Meguro
