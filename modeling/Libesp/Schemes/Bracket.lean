import Mathlib.Data.List.Basic
import Mathlib.Data.List.Perm.Basic
import Mathlib.Order.Basic
import Mathlib.Tactic

/-! @esp schemes | name:Bracket | scheme:bracket-structure

    Ordered forests of zones and leaves. A forest is a well-bracketed word (`tokens`), and its nodes
    come in two orders: preorder, in which zones open, and postorder, in which they close.

        tokens   ( a  ( b )  x  )  ( c )        zone a [zone b [], leaf x], zone c []
        pre        a    b    x       c
        post            b    x  a    c

    Where every node has a key that grows in preorder and names the key of the zone around it, the
    forest is recovered from its nodes in any order (`recover_perm`): sorting by key gives the
    preorder, and the parents give the brackets. -/

namespace Esp.Brackets

inductive Forest (ζ σ : Type*) where
  | nil
  | zone (z : ζ) (kids rest : Forest ζ σ)
  | leaf (x : σ) (rest : Forest ζ σ)
  deriving DecidableEq, Repr

namespace Forest

variable {ζ σ ζ' σ' τ α β : Type*}

def map (f : ζ → ζ') (g : σ → σ') : Forest ζ σ → Forest ζ' σ'
  | nil => nil
  | zone z kids rest => zone (f z) (kids.map f g) (rest.map f g)
  | leaf x rest => leaf (g x) (rest.map f g)

/-- How deep zones nest. -/
def depth : Forest ζ σ → ℕ
  | nil => 0
  | zone _ kids rest => max (kids.depth + 1) rest.depth
  | leaf _ rest => rest.depth

/-- The bracket word of a forest, over any letters for an opening, a closing and a leaf. -/
def tokens (opens closes : ζ → τ) (point : σ → τ) : Forest ζ σ → List τ
  | nil => []
  | zone z kids rest =>
    opens z :: (kids.tokens opens closes point ++ closes z :: rest.tokens opens closes point)
  | leaf x rest => point x :: rest.tokens opens closes point

/-- The nodes in the order they open. -/
def pre : Forest α α → List α
  | nil => []
  | zone a kids rest => a :: (kids.pre ++ rest.pre)
  | leaf a rest => a :: rest.pre

/-- The nodes in the order they close. -/
def post : Forest α α → List α
  | nil => []
  | zone a kids rest => kids.post ++ a :: rest.post
  | leaf a rest => a :: rest.post

/-- `p` holds of every zone and `q` of every leaf. -/
def All (p : ζ → Prop) (q : σ → Prop) : Forest ζ σ → Prop
  | nil => True
  | zone z kids rest => p z ∧ kids.All p q ∧ rest.All p q
  | leaf x rest => q x ∧ rest.All p q

/-- `p` holds of every zone nested at most `n` deep. -/
def AllWithin (p : ζ → Prop) : ℕ → Forest ζ σ → Prop
  | 0, _ => True
  | _ + 1, nil => True
  | n + 1, zone z kids rest => p z ∧ kids.AllWithin p n ∧ rest.AllWithin p (n + 1)
  | n + 1, leaf _ rest => rest.AllWithin p (n + 1)

/-- The word of a forest with the zones nested deeper than `n` struck out, both brackets each; what
    they contain stays. -/
def tokensWithin (opens closes : ζ → τ) (point : σ → τ) : ℕ → Forest ζ σ → List τ
  | _, nil => []
  | 0, zone _ kids rest => tokensWithin opens closes point 0 kids ++
      tokensWithin opens closes point 0 rest
  | n + 1, zone z kids rest => opens z :: (tokensWithin opens closes point n kids ++
      closes z :: tokensWithin opens closes point (n + 1) rest)
  | n, leaf x rest => point x :: tokensWithin opens closes point n rest

/-- Nothing is struck out of the word of a forest that is not too deep. -/
theorem tokensWithin_eq (opens closes : ζ → τ) (point : σ → τ) {n : ℕ} {f : Forest ζ σ}
    (h : f.depth ≤ n) : tokensWithin opens closes point n f = f.tokens opens closes point := by
  induction f generalizing n with
  | nil => cases n <;> rfl
  | zone z kids rest ihk ihr =>
    rw [depth] at h
    obtain ⟨n, rfl⟩ : ∃ m, n = m + 1 := ⟨n - 1, by omega⟩
    rw [tokensWithin, tokens, ihk (by omega), ihr (by omega)]
  | leaf x rest ih =>
    rw [depth] at h
    cases n <;> rw [tokensWithin, tokens, ih h]

/-- Where a reading of the word skips the openings, it reads the nodes as they close. -/
theorem filterMap_tokens_post {g : τ → Option α} {opens closes : ζ → τ} {point : σ → τ}
    {atZone : ζ → α} {atLeaf : σ → α} (hopen : ∀ z, g (opens z) = none)
    (hclose : ∀ z, g (closes z) = some (atZone z)) (hpoint : ∀ x, g (point x) = some (atLeaf x))
    (f : Forest ζ σ) : (f.tokens opens closes point).filterMap g = (f.map atZone atLeaf).post := by
  induction f with
  | nil => rfl
  | zone z kids rest ihk ihr =>
    rw [tokens, List.filterMap_cons_none (hopen z), List.filterMap_append, ihk,
      List.filterMap_cons_some (hclose z), ihr]
    rfl
  | leaf x rest ih =>
    rw [tokens, List.filterMap_cons_some (hpoint x), ih]
    rfl

/-- Where it skips the closings, it reads them as they open. -/
theorem filterMap_tokens_pre {g : τ → Option α} {opens closes : ζ → τ} {point : σ → τ}
    {atZone : ζ → α} {atLeaf : σ → α} (hopen : ∀ z, g (opens z) = some (atZone z))
    (hclose : ∀ z, g (closes z) = none) (hpoint : ∀ x, g (point x) = some (atLeaf x))
    (f : Forest ζ σ) : (f.tokens opens closes point).filterMap g = (f.map atZone atLeaf).pre := by
  induction f with
  | nil => rfl
  | zone z kids rest ihk ihr =>
    rw [tokens, List.filterMap_cons_some (hopen z), List.filterMap_append, ihk,
      List.filterMap_cons_none (hclose z), ihr]
    rfl
  | leaf x rest ih =>
    rw [tokens, List.filterMap_cons_some (hpoint x), ih]
    rfl

theorem map_map {ζ'' σ'' : Type*} (p : ζ' → ζ'') (q : σ' → σ'') (f : ζ → ζ') (g : σ → σ')
    (a : Forest ζ σ) : (a.map f g).map p q = a.map (fun z => p (f z)) fun x => q (g x) := by
  induction a with
  | nil => rfl
  | zone z kids rest ihk ihr => simp only [map, ihk, ihr]
  | leaf x rest ih => simp only [map, ih]

/-- Maps that agree at every node are the same on the forest. -/
theorem map_congr {f f' : ζ → ζ'} {g g' : σ → σ'} {a : Forest ζ σ}
    (h : a.All (fun z => f z = f' z) fun x => g x = g' x) : a.map f g = a.map f' g' := by
  induction a with
  | nil => rfl
  | zone z kids rest ihk ihr => rw [map, map, h.1, ihk h.2.1, ihr h.2.2]
  | leaf x rest ih => rw [map, map, h.1, ih h.2]

theorem depth_map (f : ζ → ζ') (g : σ → σ') (a : Forest ζ σ) : (a.map f g).depth = a.depth := by
  induction a with
  | nil => rfl
  | zone z kids rest ihk ihr => simp only [map, depth, ihk, ihr]
  | leaf x rest ih => simp only [map, depth, ih]

theorem tokens_map (opens closes : ζ' → τ) (point : σ' → τ) (f : ζ → ζ') (g : σ → σ')
    (a : Forest ζ σ) : (a.map f g).tokens opens closes point =
      a.tokens (fun z => opens (f z)) (fun z => closes (f z)) fun x => point (g x) := by
  induction a with
  | nil => rfl
  | zone z kids rest ihk ihr => simp only [map, tokens, ihk, ihr]
  | leaf x rest ih => simp only [map, tokens, ih]

theorem map_tokens {τ' : Type*} (g : τ → τ') (opens closes : ζ → τ) (point : σ → τ)
    (f : Forest ζ σ) : (f.tokens opens closes point).map g =
      f.tokens (fun z => g (opens z)) (fun z => g (closes z)) fun x => g (point x) := by
  induction f with
  | nil => rfl
  | zone z kids rest ihk ihr => simp only [tokens, List.map_cons, List.map_append, ihk, ihr]
  | leaf x rest ih => simp only [tokens, List.map_cons, ih]

theorem allWithin_map {p : ζ' → Prop} {f : ζ → ζ'} (g : σ → σ') (hp : ∀ z, p (f z)) (n : ℕ)
    (a : Forest ζ σ) : (a.map f g).AllWithin p n := by
  induction a generalizing n with
  | nil => cases n <;> trivial
  | zone z kids rest ihk ihr =>
    cases n with
    | zero => trivial
    | succ n => exact ⟨hp z, ihk n, ihr (n + 1)⟩
  | leaf x rest ih =>
    cases n with
    | zero => trivial
    | succ n => exact ih (n + 1)

theorem length_tokens (opens closes opens' closes' : ζ → τ) (point point' : σ → τ)
    (f : Forest ζ σ) :
    (f.tokens opens closes point).length = (f.tokens opens' closes' point').length := by
  induction f with
  | nil => rfl
  | zone z kids rest ihk ihr => simp only [tokens, List.length_cons, List.length_append, ihk, ihr]
  | leaf x rest ih => simp only [tokens, List.length_cons, ih]

/-- Two readings of a forest that spell the same word agree at every node. -/
theorem all_of_tokens_eq {opens closes opens' closes' : ζ → τ} {point point' : σ → τ}
    {f : Forest ζ σ} (h : f.tokens opens closes point = f.tokens opens' closes' point') :
    f.All (fun z => opens z = opens' z ∧ closes z = closes' z) fun x => point x = point' x := by
  induction f with
  | nil => trivial
  | zone z kids rest ihk ihr =>
    obtain ⟨ho, h⟩ := List.cons.inj h
    obtain ⟨hk, h⟩ := List.append_inj h (length_tokens ..)
    obtain ⟨hc, hr⟩ := List.cons.inj h
    exact ⟨⟨ho, hc⟩, ihk hk, ihr hr⟩
  | leaf x rest ih =>
    obtain ⟨hp, hr⟩ := List.cons.inj h
    exact ⟨hp, ih hr⟩

theorem pre_map (g : α → β) (f : Forest α α) : (f.map g g).pre = f.pre.map g := by
  induction f with
  | nil => rfl
  | zone a kids rest ihk ihr => simp only [map, pre, ihk, ihr, List.map_cons, List.map_append]
  | leaf a rest ih => simp only [map, pre, ih, List.map_cons]

/-- A property of every letter of the word, as properties of the nodes. -/
theorem all_of_tokens {p : τ → Prop} {opens closes : ζ → τ} {point : σ → τ} {f : Forest ζ σ}
    (h : ∀ x ∈ f.tokens opens closes point, p x) :
    f.All (fun z => p (opens z) ∧ p (closes z)) fun x => p (point x) := by
  induction f with
  | nil => trivial
  | zone z kids rest ihk ihr =>
    simp only [tokens, List.forall_mem_cons, List.forall_mem_append] at h
    obtain ⟨ho, hk, hc, hr⟩ := h
    exact ⟨⟨ho, hc⟩, ihk hk, ihr hr⟩
  | leaf x rest ih =>
    simp only [tokens, List.forall_mem_cons] at h
    exact ⟨h.1, ih h.2⟩

theorem All.imp {p p' : ζ → Prop} {q q' : σ → Prop} (hp : ∀ z, p z → p' z) (hq : ∀ x, q x → q' x)
    {f : Forest ζ σ} (h : f.All p q) : f.All p' q' := by
  induction f with
  | nil => trivial
  | zone z kids rest ihk ihr => exact ⟨hp z h.1, ihk h.2.1, ihr h.2.2⟩
  | leaf x rest ih => exact ⟨hq x h.1, ih h.2⟩

theorem post_map (g : α → β) (f : Forest α α) : (f.map g g).post = f.post.map g := by
  induction f with
  | nil => rfl
  | zone a kids rest ihk ihr => simp only [map, post, ihk, ihr, List.map_cons, List.map_append]
  | leaf a rest ih => simp only [map, post, ih, List.map_cons]

theorem All.and {p p' : ζ → Prop} {q q' : σ → Prop} {f : Forest ζ σ} (h : f.All p q)
    (h' : f.All p' q') : f.All (fun z => p z ∧ p' z) fun x => q x ∧ q' x := by
  induction f with
  | nil => trivial
  | zone z kids rest ihk ihr => exact ⟨⟨h.1, h'.1⟩, ihk h.2.1 h'.2.1, ihr h.2.2 h'.2.2⟩
  | leaf x rest ih => exact ⟨⟨h.1, h'.1⟩, ih h.2 h'.2⟩

theorem all_map {p : ζ' → Prop} {q : σ' → Prop} {f : ζ → ζ'} {g : σ → σ'} {a : Forest ζ σ} :
    (a.map f g).All p q ↔ a.All (fun z => p (f z)) fun x => q (g x) := by
  induction a with
  | nil => exact Iff.rfl
  | zone z kids rest ihk ihr => rw [map, All, All, ihk, ihr]
  | leaf x rest ih => rw [map, All, All, ih]

/-- What holds of every node holds of every node in the order they close. -/
theorem All.post {p : α → Prop} {f : Forest α α} (h : f.All p p) : ∀ a ∈ f.post, p a := by
  induction f with
  | nil => exact List.forall_mem_nil _
  | zone a kids rest ihk ihr =>
    exact List.forall_mem_append.mpr ⟨ihk h.2.1, List.forall_mem_cons.mpr ⟨h.1, ihr h.2.2⟩⟩
  | leaf a rest ih => exact List.forall_mem_cons.mpr ⟨h.1, ih h.2⟩

theorem pre_perm_post (f : Forest α α) : f.pre.Perm f.post := by
  induction f with
  | nil => exact List.Perm.refl _
  | zone a kids rest ihk ihr =>
    exact ((ihk.append ihr).cons a).trans List.perm_middle.symm
  | leaf a rest ih => exact ih.cons a

/-! ### Recovery -/

variable (key parent : α → ℕ) (isZone : α → Bool)

/-- Every node names the key of the zone around it, or `p` at the top. -/
def Linked : ℕ → Forest α α → Prop
  | _, nil => True
  | p, zone a kids rest =>
    parent a = p ∧ isZone a = true ∧ Linked (key a) kids ∧ Linked p rest
  | p, leaf a rest => parent a = p ∧ isZone a = false ∧ Linked p rest

/-- Read a forest whose top nodes name `p` off the front of a preorder list; the first argument
    bounds the recursion. -/
def build : ℕ → ℕ → List α → Forest α α × List α
  | 0, _, l => (nil, l)
  | _ + 1, _, [] => (nil, [])
  | n + 1, p, a :: l =>
    if parent a = p then
      if isZone a then
        let kids := build n (key a) l
        let rest := build n p kids.2
        (zone a kids.1 rest.1, rest.2)
      else
        let rest := build n p l
        (leaf a rest.1, rest.2)
    else (nil, a :: l)

/-- The forest of a set of nodes: sort by key, then build. -/
def recover (root : ℕ) (l : List α) : Forest α α :=
  (build key parent isZone (l.length + 1) root (l.mergeSort fun a b => decide (key a ≤ key b))).1

variable {key parent isZone}

/-- The keys of the nodes are those of what they are read as. -/
theorem linked_map {g : β → α} {p : ℕ} {f : Forest β β} :
    Linked key parent isZone p (f.map g g) ↔
      Linked (fun b => key (g b)) (fun b => parent (g b)) (fun b => isZone (g b)) p f := by
  induction f generalizing p with
  | nil => exact Iff.rfl
  | zone b kids rest ihk ihr => rw [map, Linked, Linked, ihk, ihr]
  | leaf b rest ih => rw [map, Linked, Linked, ih]

/-- `build` reads a forest back and stops at a node that belongs further out. -/
theorem build_pre {n p : ℕ} {f : Forest α α} {tail : List α} (hn : f.pre.length < n)
    (hf : Linked key parent isZone p f) (hk : ∀ a ∈ f.pre, p < key a)
    (hs : (f.pre.map key).Pairwise (· < ·))
    (ht : ∀ b ∈ tail.head?, parent b < p) :
    build key parent isZone n p (f.pre ++ tail) = (f, tail) := by
  induction f generalizing n p tail with
  | nil =>
    obtain ⟨n, rfl⟩ : ∃ m, n = m + 1 := ⟨n - 1, by simp only [pre, List.length_nil] at hn; omega⟩
    cases tail with
    | nil => rfl
    | cons b tail =>
      have hb : parent b < p := ht b rfl
      simp only [pre, List.nil_append, build]
      rw [if_neg (by omega)]
  | zone a kids rest ihk ihr =>
    obtain ⟨hpa, hz, hkids, hrest⟩ := hf
    obtain ⟨n, rfl⟩ : ∃ m, n = m + 1 := ⟨n - 1, by omega⟩
    have ha : p < key a := hk a List.mem_cons_self
    simp only [pre, List.length_cons, List.length_append] at hn
    simp only [pre, List.map_cons, List.map_append, List.pairwise_cons, List.pairwise_append] at hs
    obtain ⟨hfirst, hsk, hsr, -⟩ := hs
    -- the next node after the kids names `p` or something smaller, never `key a`
    have hnext : ∀ b ∈ (rest.pre ++ tail).head?, parent b < key a := by
      intro b hb
      cases rest with
      | nil => exact (ht b hb).trans ha
      | zone c _ _ => cases hb; exact hrest.1 ▸ ha
      | leaf c _ => cases hb; exact hrest.1 ▸ ha
    have hk1 := ihk (n := n) (by omega) hkids
      (fun b hb => hfirst (key b) (List.mem_append_left _ (List.mem_map_of_mem hb))) hsk hnext
    have hr1 := ihr (n := n) (by omega) hrest
      (fun b hb => hk b (List.mem_cons_of_mem _ (List.mem_append_right _ hb))) hsr ht
    simp only [pre, List.cons_append, List.append_assoc, build]
    rw [if_pos hpa, if_pos hz, hk1, hr1]
  | leaf a rest ih =>
    obtain ⟨hpa, hz, hrest⟩ := hf
    obtain ⟨n, rfl⟩ : ∃ m, n = m + 1 := ⟨n - 1, by omega⟩
    simp only [pre, List.length_cons] at hn
    simp only [pre, List.map_cons, List.pairwise_cons] at hs
    have hr1 := ih (n := n) (by omega) hrest (fun b hb => hk b (List.mem_cons_of_mem _ hb)) hs.2 ht
    simp only [pre, List.cons_append, build]
    rw [if_pos hpa, if_neg (by rw [hz]; nofun), hr1]

/-- CORRECT: a linked forest with growing keys is recovered from its nodes in any order. -/
theorem recover_perm {root : ℕ} {f : Forest α α} (hf : Linked key parent isZone root f)
    (hk : ∀ a ∈ f.pre, root < key a) (hs : (f.pre.map key).Pairwise (· < ·)) {l : List α}
    (hl : l.Perm f.post) : recover key parent isZone root l = f := by
  have hperm : l.Perm f.pre := hl.trans f.pre_perm_post.symm
  have hsorted : (l.mergeSort fun a b => decide (key a ≤ key b)) = f.pre := by
    have hpw : f.pre.Pairwise fun a b => key a < key b := List.pairwise_map.mp hs
    have hnd : (f.pre.map key).Nodup := hs.imp fun h => ne_of_lt h
    have hmerge := (List.mergeSort_perm l fun a b => decide (key a ≤ key b)).trans hperm
    have hpm := @List.pairwise_mergeSort α (fun a b => decide (key a ≤ key b))
      (fun a b c hab hbc => by simp only [decide_eq_true_eq] at *; omega)
      (fun a b => by simp only [Bool.or_eq_true, decide_eq_true_eq]; omega) l
    refine hmerge.eq_of_pairwise ?_ (hpm.imp fun h => of_decide_eq_true h)
      (hpw.imp fun h => le_of_lt h)
    intro a b ha hb hab hba
    exact List.inj_on_of_nodup_map hnd (hmerge.mem_iff.mp ha) hb (le_antisymm hab hba)
  have hbuild : build key parent isZone (l.length + 1) root (f.pre ++ []) = (f, []) :=
    build_pre (by rw [hperm.length_eq]; omega) hf hk hs fun b hb => by cases hb
  rw [List.append_nil] at hbuild
  rw [recover, hsorted, hbuild]

@[simp] theorem recover_nil (root : ℕ) : recover key parent isZone root [] = nil :=
  recover_perm (f := nil) trivial (List.forall_mem_nil _) List.Pairwise.nil (List.Perm.refl [])

end Forest

end Esp.Brackets
