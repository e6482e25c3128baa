import Mathlib.Data.List.Basic
import Mathlib.Data.Tree.Basic

/-!
# Search trees over a comparison

Binary trees in which a comparison of keys decides the side, greater keys to the
left. `put` replaces the node of a key or hangs a new one where the search for the
key ends, and `Leads` says where this is: the link the search follows last and the
subtree behind it.
-/

namespace SearchTree

variable {α κ : Type*}

/-- The nodes of a tree. -/
def nodes : BinaryTree α → List α
  | .nil => []
  | .node a l r => a :: (nodes l ++ nodes r)

@[simp] theorem nodes_nil : nodes (.nil : BinaryTree α) = [] := rfl

theorem mem_nodes_node {a b : α} {l r : BinaryTree α} :
    b ∈ nodes (.node a l r) ↔ b = a ∨ b ∈ nodes l ∨ b ∈ nodes r := by
  rw [nodes, List.mem_cons, List.mem_append]

theorem root_mem {t l r : BinaryTree α} {a : α} (ht : t = .node a l r) : a ∈ nodes t := by
  rw [ht]
  exact mem_nodes_node.mpr (.inl rfl)

/-- The two links of a node. -/
inductive Side
  | left
  | right
  deriving DecidableEq, Repr

variable (cmp : κ → κ → Ordering) (key : α → κ)

/-- Greater keys to the left of every node, less keys to its right. -/
def Ordered : BinaryTree α → Prop
  | .nil => True
  | .node a l r =>
    (∀ b ∈ nodes l, cmp (key b) (key a) = .gt) ∧ (∀ b ∈ nodes r, cmp (key b) (key a) = .lt) ∧
      Ordered l ∧ Ordered r

/-- Replace the node of a key, or hang a new one where the search ends. -/
def put (new : α) : BinaryTree α → BinaryTree α
  | .nil => .node new .nil .nil
  | .node a l r =>
    match cmp (key new) (key a) with
    | .gt => .node a (put new l) r
    | .lt => .node a l (put new r)
    | .eq => .node new l r

/-- The search for a key ends at a subtree: empty, or with the key at its root. The
link it hangs on is one of a node or, if there is none, the tree's own. -/
inductive Leads (k : κ) : BinaryTree α → Option (α × Side) → BinaryTree α → Prop
  | nil : Leads k .nil none .nil
  | here {a l r} : cmp k (key a) = .eq → Leads k (.node a l r) none (.node a l r)
  | left {a l r link sub} : cmp k (key a) = .gt → Leads k l link sub →
      Leads k (.node a l r) (link.or (some (a, .left))) sub
  | right {a l r link sub} : cmp k (key a) = .lt → Leads k r link sub →
      Leads k (.node a l r) (link.or (some (a, .right))) sub

variable {cmp key}

theorem Ordered.left {a : α} {l r : BinaryTree α} (h : Ordered cmp key (.node a l r)) :
    Ordered cmp key l := h.2.2.1

theorem Ordered.right {a : α} {l r : BinaryTree α} (h : Ordered cmp key (.node a l r)) :
    Ordered cmp key r := h.2.2.2

/-- Every search ends somewhere. -/
theorem exists_leads (cmp : κ → κ → Ordering) (key : α → κ) (k : κ) (t : BinaryTree α) :
    ∃ link sub, Leads cmp key k t link sub := by
  induction t with
  | nil => exact ⟨none, .nil, .nil⟩
  | node a l r ihl ihr =>
    cases hcmp : cmp k (key a) with
    | lt =>
      obtain ⟨link, sub, h⟩ := ihr
      exact ⟨_, sub, .right hcmp h⟩
    | eq => exact ⟨none, _, .here hcmp⟩
    | gt =>
      obtain ⟨link, sub, h⟩ := ihl
      exact ⟨_, sub, .left hcmp h⟩

/-- The nodes of the subtree are nodes of the tree, and so is the one it hangs on. -/
theorem Leads.mem {k : κ} {t sub : BinaryTree α} {link : Option (α × Side)}
    (h : Leads cmp key k t link sub) :
    (∀ b ∈ nodes sub, b ∈ nodes t) ∧ ∀ p ∈ link, p.1 ∈ nodes t := by
  induction h with
  | nil => exact ⟨fun b hb => hb, nofun⟩
  | here => exact ⟨fun b hb => hb, nofun⟩
  | @left a l r link sub _ _ ih =>
    refine ⟨fun b hb => mem_nodes_node.mpr (.inr (.inl (ih.1 b hb))), fun p hp => ?_⟩
    cases link with
    | none => exact mem_nodes_node.mpr (.inl (by rw [← Option.some.inj hp]))
    | some q => exact mem_nodes_node.mpr (.inr (.inl (ih.2 p hp)))
  | @right a l r link sub _ _ ih =>
    refine ⟨fun b hb => mem_nodes_node.mpr (.inr (.inr (ih.1 b hb))), fun p hp => ?_⟩
    cases link with
    | none => exact mem_nodes_node.mpr (.inl (by rw [← Option.some.inj hp]))
    | some q => exact mem_nodes_node.mpr (.inr (.inr (ih.2 p hp)))

/-- If it is not empty, the key is that of its root. -/
theorem Leads.root_eq {k : κ} {t l r : BinaryTree α} {a : α} {link : Option (α × Side)}
    (h : Leads cmp key k t link (.node a l r)) : cmp k (key a) = .eq := by
  generalize hsub : BinaryTree.node a l r = sub at h
  induction h with
  | nil => cases hsub
  | here heq =>
    cases hsub
    exact heq
  | left _ _ ih => exact ih hsub
  | right _ _ ih => exact ih hsub

/-- The subtree a search ends at does not have the node it hangs on. -/
theorem Leads.apart {k : κ} {t sub : BinaryTree α} {link : Option (α × Side)}
    (h : Leads cmp key k t link sub) (hnodup : (nodes t).Nodup) :
    (nodes sub).Nodup ∧ ∀ p ∈ link, p.1 ∉ nodes sub := by
  induction h with
  | nil => exact ⟨hnodup, nofun⟩
  | here => exact ⟨hnodup, nofun⟩
  | @left a l r link sub _ hleads ih =>
    obtain ⟨ha, hlr⟩ := List.nodup_cons.mp hnodup
    obtain ⟨hsub, hlink⟩ := ih (List.nodup_append.mp hlr).1
    refine ⟨hsub, fun p hp hmem => ?_⟩
    cases link with
    | none =>
      obtain rfl : (a, Side.left) = p := Option.some.inj hp
      exact ha (List.mem_append_left _ (hleads.mem.1 _ hmem))
    | some q => exact hlink p hp hmem
  | @right a l r link sub _ hleads ih =>
    obtain ⟨ha, hlr⟩ := List.nodup_cons.mp hnodup
    obtain ⟨hsub, hlink⟩ := ih (List.nodup_append.mp hlr).2.1
    refine ⟨hsub, fun p hp hmem => ?_⟩
    cases link with
    | none =>
      obtain rfl : (a, Side.right) = p := Option.some.inj hp
      exact ha (List.mem_append_right _ (hleads.mem.1 _ hmem))
    | some q => exact hlink p hp hmem

/-- A `put` changes the number of nodes of the tree as that of the subtree. -/
theorem Leads.numNodes_put {t sub : BinaryTree α} {link : Option (α × Side)} {new : α}
    (h : Leads cmp key (key new) t link sub) :
    (put cmp key new t).numNodes + sub.numNodes = t.numNodes + (put cmp key new sub).numNodes := by
  induction h with
  | nil => exact Nat.add_comm _ _
  | here => exact Nat.add_comm _ _
  | left hgt _ ih =>
    simp only [put, hgt, BinaryTree.numNodes]
    omega
  | right hlt _ ih =>
    simp only [put, hlt, BinaryTree.numNodes]
    omega

section Lawful

variable (hcmp : ∀ a b, cmp a b = .eq ↔ a = b)
include hcmp

/-- The comparison with the root of an ordered tree says where a node is. -/
theorem Ordered.mem_side {a b : α} {l r : BinaryTree α} (ht : Ordered cmp key (.node a l r))
    (hb : b ∈ nodes (.node a l r)) :
    cmp (key b) (key a) = .gt ∧ b ∈ nodes l ∨ cmp (key b) (key a) = .eq ∧ b = a ∨
      cmp (key b) (key a) = .lt ∧ b ∈ nodes r := by
  rcases mem_nodes_node.mp hb with rfl | hb | hb
  · exact .inr (.inl ⟨(hcmp _ _).mpr rfl, rfl⟩)
  · exact .inl ⟨ht.1 b hb, hb⟩
  · exact .inr (.inr ⟨ht.2.1 b hb, hb⟩)

/-- In an ordered tree a search that ends in the empty tree has missed no node. -/
theorem Leads.key_ne {k : κ} {t : BinaryTree α} {link : Option (α × Side)}
    (h : Leads cmp key k t link .nil) (ht : Ordered cmp key t) : ∀ b ∈ nodes t, key b ≠ k := by
  generalize hsub : BinaryTree.nil = sub at h
  induction h with
  | nil => exact fun b hb => by cases hb
  | here => cases hsub
  | left hgt _ ih =>
    rintro b hb rfl
    rcases ht.mem_side hcmp hb with ⟨-, hb⟩ | ⟨heq, -⟩ | ⟨hlt, -⟩
    · exact ih ht.left hsub b hb rfl
    · rw [heq] at hgt
      cases hgt
    · rw [hlt] at hgt
      cases hgt
  | right hlt _ ih =>
    rintro b hb rfl
    rcases ht.mem_side hcmp hb with ⟨hgt, -⟩ | ⟨heq, -⟩ | ⟨-, hb⟩
    · rw [hgt] at hlt
      cases hlt
    · rw [heq] at hlt
      cases hlt
    · exact ih ht.right hsub b hb rfl

/-- In an ordered tree the keys of two nodes differ. -/
theorem Ordered.eq_of_key_eq {t : BinaryTree α} (ht : Ordered cmp key t) {a b : α}
    (ha : a ∈ nodes t) (hb : b ∈ nodes t) (hk : key a = key b) : a = b := by
  induction t with
  | nil => cases ha
  | node c l r ihl ihr =>
    have hside := ht.mem_side hcmp hb
    rw [← hk] at hside
    rcases ht.mem_side hcmp ha with ⟨hgt, ha⟩ | ⟨heq, rfl⟩ | ⟨hlt, ha⟩
    · rw [hgt] at hside
      exact ihl ht.left ha (by simpa using hside)
    · rw [heq] at hside
      exact (by simpa using hside : b = a).symm
    · rw [hlt] at hside
      exact ihr ht.right ha (by simpa using hside)

/-- In an ordered tree no node occurs twice. -/
theorem Ordered.nodup {t : BinaryTree α} (ht : Ordered cmp key t) : (nodes t).Nodup := by
  induction t with
  | nil => exact List.nodup_nil
  | node a l r ihl ihr =>
    have hself : cmp (key a) (key a) = .eq := (hcmp _ _).mpr rfl
    refine List.nodup_cons.mpr ⟨fun hmem => ?_,
      List.nodup_append.mpr ⟨ihl ht.left, ihr ht.right, fun b hl c hr hbc => ?_⟩⟩
    · rcases List.mem_append.mp hmem with hl | hr
      · rw [ht.1 a hl] at hself
        cases hself
      · rw [ht.2.1 a hr] at hself
        cases hself
    · have hgt := ht.1 b hl
      rw [hbc, ht.2.1 c hr] at hgt
      cases hgt

/-- In an ordered tree the search for the key of a node ends at this node. -/
theorem Leads.eq_node {t sub : BinaryTree α} {link : Option (α × Side)} {a : α}
    (ht : Ordered cmp key t)
    (h : Leads cmp key (key a) t link sub) (ha : a ∈ nodes t) : ∃ l r, sub = .node a l r := by
  cases sub with
  | nil => exact (h.key_ne hcmp ht a ha rfl).elim
  | node b l r =>
    have hb : b ∈ nodes t := h.mem.1 b (mem_nodes_node.mpr (.inl rfl))
    rw [ht.eq_of_key_eq hcmp ha hb ((hcmp _ _).mp h.root_eq)]
    exact ⟨l, r, rfl⟩

/-- After a `put` the tree has the new node and the old ones with other keys. -/
theorem mem_put {t : BinaryTree α} (ht : Ordered cmp key t) {new b : α} :
    b ∈ nodes (put cmp key new t) ↔ b = new ∨ b ∈ nodes t ∧ key b ≠ key new := by
  induction t with
  | nil => simp [put, nodes]
  | node a l r ihl ihr =>
    have hself : ∀ x, cmp x x = .eq := fun x => (hcmp x x).mpr rfl
    cases hside : cmp (key new) (key a) with
    | gt =>
      have ha : key a ≠ key new := fun hk => by
        rw [hk, hself] at hside
        cases hside
      have hr : ∀ b ∈ nodes r, key b ≠ key new := fun b hb hk => by
        rw [← hk, ht.2.1 b hb] at hside
        cases hside
      simp only [put, hside, mem_nodes_node, ihl ht.left]
      grind
    | lt =>
      have ha : key a ≠ key new := fun hk => by
        rw [hk, hself] at hside
        cases hside
      have hl : ∀ b ∈ nodes l, key b ≠ key new := fun b hb hk => by
        rw [← hk, ht.1 b hb] at hside
        cases hside
      simp only [put, hside, mem_nodes_node, ihr ht.right]
      grind
    | eq =>
      have ha : key a = key new := ((hcmp _ _).mp hside).symm
      have hl : ∀ b ∈ nodes l, key b ≠ key new := fun b hb hk => by
        have hgt := ht.1 b hb
        rw [hk, hside] at hgt
        cases hgt
      have hr : ∀ b ∈ nodes r, key b ≠ key new := fun b hb hk => by
        have hlt := ht.2.1 b hb
        rw [hk, hside] at hlt
        cases hlt
      simp only [put, hside, mem_nodes_node]
      grind

/-- `put` keeps a tree ordered. -/
theorem Ordered.put {t : BinaryTree α} (ht : Ordered cmp key t) (new : α) :
    Ordered cmp key (SearchTree.put cmp key new t) := by
  induction t with
  | nil => exact ⟨nofun, nofun, trivial, trivial⟩
  | node a l r ihl ihr =>
    cases hside : cmp (key new) (key a) with
    | gt =>
      simp only [SearchTree.put, hside]
      refine ⟨fun b hb => ?_, ht.2.1, ihl ht.left, ht.right⟩
      rcases (mem_put hcmp ht.left).mp hb with rfl | ⟨hb, -⟩
      · exact hside
      · exact ht.1 b hb
    | lt =>
      simp only [SearchTree.put, hside]
      refine ⟨ht.1, fun b hb => ?_, ht.left, ihr ht.right⟩
      rcases (mem_put hcmp ht.right).mp hb with rfl | ⟨hb, -⟩
      · exact hside
      · exact ht.2.1 b hb
    | eq =>
      have ha : key new = key a := (hcmp _ _).mp hside
      simp only [SearchTree.put, hside]
      exact ⟨fun b hb => ha ▸ ht.1 b hb, fun b hb => ha ▸ ht.2.1 b hb, ht.left, ht.right⟩

end Lawful

end SearchTree
