import Mathlib.Algebra.Order.Group.Defs
import Libesp.Schemes.Bracket

/-! @esp schemes | name:Nesting | scheme:bracket-structure

    Intervals on a forest. Every zone has an interval and every leaf is a point; the forest is nested
    when each zone encloses what is directly inside it. Where siblings come one after the other, one
    inequality a zone decides that: its last child ends in time.

        zone   ├──────────────────────────┤ end
        kids     ├─────┤   •   ├───────┤
                                last ──▶ ends by the zone's end -/

namespace Esp.Brackets

namespace Forest

variable {ζ σ ζ' σ' β γ : Type*}

/-- `p` holds of every zone and what is inside it. -/
def AllZones (p : ζ → Forest ζ σ → Prop) : Forest ζ σ → Prop
  | nil => True
  | zone z kids rest => p z kids ∧ kids.AllZones p ∧ rest.AllZones p
  | leaf _ rest => rest.AllZones p

/-- The nodes at the top, in order. -/
def tops (g : ζ → β) (h : σ → β) : Forest ζ σ → List β
  | nil => []
  | zone z _ rest => g z :: rest.tops g h
  | leaf x rest => h x :: rest.tops g h

/-- The zones at the top, in order. -/
def zones : Forest ζ σ → List ζ
  | nil => []
  | zone z _ rest => z :: rest.zones
  | leaf _ rest => rest.zones

theorem AllZones.imp {p q : ζ → Forest ζ σ → Prop} (hpq : ∀ z kids, p z kids → q z kids)
    {f : Forest ζ σ} (h : f.AllZones p) : f.AllZones q := by
  induction f with
  | nil => trivial
  | zone z kids rest ihk ihr => exact ⟨hpq z kids h.1, ihk h.2.1, ihr h.2.2⟩
  | leaf x rest ih => exact ih h

theorem AllZones.and {p q : ζ → Forest ζ σ → Prop} {f : Forest ζ σ} (hp : f.AllZones p)
    (hq : f.AllZones q) : f.AllZones fun z kids => p z kids ∧ q z kids := by
  induction f with
  | nil => trivial
  | zone z kids rest ihk ihr => exact ⟨⟨hp.1, hq.1⟩, ihk hp.2.1 hq.2.1, ihr hp.2.2 hq.2.2⟩
  | leaf x rest ih => exact ih hp hq

theorem allZones_map (p : ζ' → Forest ζ' σ' → Prop) (g : ζ → ζ') (h : σ → σ') (f : Forest ζ σ) :
    (f.map g h).AllZones p ↔ f.AllZones fun z kids => p (g z) (kids.map g h) := by
  induction f with
  | nil => exact Iff.rfl
  | zone z kids rest ihk ihr => simp only [map, AllZones, ihk, ihr]
  | leaf x rest ih => simp only [map, AllZones, ih]

theorem tops_map (g : ζ' → β) (h : σ' → β) (g' : ζ → ζ') (h' : σ → σ') (f : Forest ζ σ) :
    (f.map g' h').tops g h = f.tops (fun z => g (g' z)) fun x => h (h' x) := by
  induction f with
  | nil => rfl
  | zone z kids rest ihk ihr => simp only [map, tops, ihr]
  | leaf x rest ih => simp only [map, tops, ih]

theorem map_tops (r : β → γ) (g : ζ → β) (h : σ → β) (f : Forest ζ σ) :
    (f.tops g h).map r = f.tops (fun z => r (g z)) fun x => r (h x) := by
  induction f with
  | nil => rfl
  | zone z kids rest ihk ihr => simp only [tops, List.map_cons, ihr]
  | leaf x rest ih => simp only [tops, List.map_cons, ih]

theorem zones_map (g : ζ → ζ') (h : σ → σ') (f : Forest ζ σ) :
    (f.map g h).zones = f.zones.map g := by
  induction f with
  | nil => rfl
  | zone z kids rest ihk ihr => simp only [map, zones, List.map_cons, ihr]
  | leaf x rest ih => simp only [map, zones, ih]

/-- The zones at the top are among the nodes at the top. -/
theorem zones_sublist (g : ζ → β) (h : σ → β) (f : Forest ζ σ) :
    (f.zones.map g).Sublist (f.tops g h) := by
  induction f with
  | nil => exact List.Sublist.refl []
  | zone z kids rest ihk ihr => exact ihr.cons_cons (g z)
  | leaf x rest ih => exact ih.cons (h x)

/-- Nodes at the top open in the word of the forest. -/
theorem tops_subset_tokens (opens closes : ζ → β) (point : σ → β) (f : Forest ζ σ) :
    f.tops opens point ⊆ f.tokens opens closes point := by
  induction f with
  | nil => exact List.Subset.refl []
  | zone z kids rest ihk ihr =>
    rintro b (_ | ⟨_, hb⟩)
    · exact List.mem_cons_self
    · exact List.mem_cons_of_mem _ (List.mem_append_right _ (List.mem_cons_of_mem _ (ihr hb)))
  | leaf x rest ih => exact List.cons_subset_cons _ ih

end Forest

/-! ### Intervals in a row -/

section Rows

variable {α : Type*} [LinearOrder α]

/-- Intervals one after the other. -/
structure Row (l : List (α × α)) : Prop where
  proper : ∀ a ∈ l, a.1 ≤ a.2
  apart : l.Pairwise fun a b => a.2 ≤ b.1

theorem row_nil : Row ([] : List (α × α)) := ⟨List.forall_mem_nil _, List.Pairwise.nil⟩

theorem Row.cons {a : α × α} {l : List (α × α)} (h : Row l) (ha : a.1 ≤ a.2)
    (hl : ∀ b ∈ l, a.2 ≤ b.1) : Row (a :: l) :=
  ⟨List.forall_mem_cons.mpr ⟨ha, h.proper⟩, List.pairwise_cons.mpr ⟨hl, h.apart⟩⟩

theorem Row.tail {a : α × α} {l : List (α × α)} (h : Row (a :: l)) : Row l :=
  ⟨fun b hb => h.proper b (List.mem_cons_of_mem a hb), (List.pairwise_cons.mp h.apart).2⟩

theorem Row.sublist {l l' : List (α × α)} (h : Row l) (hl : l'.Sublist l) : Row l' :=
  ⟨fun a ha => h.proper a (hl.subset ha), h.apart.sublist hl⟩

/-- A row ends where its last interval ends. -/
theorem Row.forall_le_iff {l : List (α × α)} (h : Row l) (e : α) :
    (∀ a ∈ l, a.2 ≤ e) ↔ ∀ a ∈ l.getLast?, a.2 ≤ e := by
  constructor
  · intro hall a ha
    exact hall a (List.mem_of_getLast? ha)
  · induction l with
    | nil => exact fun _ => List.forall_mem_nil _
    | cons a l ih =>
      intro hlast
      cases l with
      | nil => exact List.forall_mem_singleton.mpr (hlast a rfl)
      | cons b l =>
        have hrest := ih h.tail (by rwa [List.getLast?_cons_cons] at hlast)
        have hab : a.2 ≤ b.1 := (List.pairwise_cons.mp h.apart).1 b List.mem_cons_self
        refine List.forall_mem_cons.mpr ⟨?_, hrest⟩
        calc a.2 ≤ b.1 := hab
          _ ≤ b.2 := h.tail.proper b List.mem_cons_self
          _ ≤ e := hrest b List.mem_cons_self

end Rows

section Nested

variable {α : Type*} [AddCommGroup α] [LinearOrder α] [IsOrderedAddMonoid α]

/-- The lengths of a row within `[s, e]` sum to at most `e - s`. -/
theorem Row.sum_le {l : List (α × α)} (h : Row l) {s e : α} (hse : s ≤ e)
    (hs : ∀ a ∈ l, s ≤ a.1) (he : ∀ a ∈ l, a.2 ≤ e) : (l.map fun a => a.2 - a.1).sum ≤ e - s := by
  induction l generalizing s with
  | nil => exact sub_nonneg.mpr hse
  | cons a l ih =>
    have hnext : ∀ b ∈ l, a.2 ≤ b.1 := (List.pairwise_cons.mp h.apart).1
    have hrest := ih h.tail (he a List.mem_cons_self) hnext
      fun b hb => he b (List.mem_cons_of_mem a hb)
    rw [List.map_cons, List.sum_cons]
    calc a.2 - a.1 + (l.map fun a => a.2 - a.1).sum ≤ a.2 - a.1 + (e - a.2) :=
          add_le_add_right hrest _
      _ = e - a.1 := by abel
      _ ≤ e - s := sub_le_sub_left (hs a List.mem_cons_self) e

/-- What a zone with interval `z` does with the forest inside it. -/
structure Encloses (z : α × α) (kids : Forest (α × α) α) : Prop where
  /-- The interval contains where each node inside starts. -/
  contains : ∀ x ∈ kids.tops Prod.fst id, z.1 ≤ x ∧ x ≤ z.2
  /-- It contains the whole interval of each zone inside. -/
  wholes : ∀ k ∈ kids.zones, z.1 ≤ k.1 ∧ k.2 ≤ z.2
  /-- Zones inside do not overlap except at an end point. -/
  apart : kids.zones.Pairwise fun j k => j.2 ≤ k.1
  /-- Their lengths sum to at most its own. -/
  sum_le : (kids.zones.map fun k => k.2 - k.1).sum ≤ z.2 - z.1

/-- A nested forest: zones at the top do not overlap, and every zone encloses what is inside it. -/
def Nested (f : Forest (α × α) α) : Prop :=
  (f.zones.Pairwise fun j k => j.2 ≤ k.1) ∧ f.AllZones Encloses

/-- The intervals of the nodes at the top; a leaf is a point. -/
def spans (f : Forest (α × α) α) : List (α × α) := f.tops id fun x => (x, x)

/-- Siblings come one after the other, behind the start of the zone around them. -/
def Orderly (f : Forest (α × α) α) : Prop :=
  Row (spans f) ∧
    f.AllZones fun z kids => z.1 ≤ z.2 ∧ Row (spans kids) ∧ ∀ a ∈ spans kids, z.1 ≤ a.1

/-- The last node inside a zone ends by the zone's own end. -/
def LastInTime (f : Forest (α × α) α) : Prop :=
  f.AllZones fun z kids => ∀ a ∈ (spans kids).getLast?, a.2 ≤ z.2

omit [AddCommGroup α] [IsOrderedAddMonoid α] in
theorem zones_row {f : Forest (α × α) α} (h : Row (spans f)) : Row f.zones := by
  have hsub := f.zones_sublist id fun x => (x, x)
  rw [List.map_id] at hsub
  exact h.sublist hsub

omit [AddCommGroup α] [IsOrderedAddMonoid α] in
/-- Nodes at the top end by `e` when its leaves and its zones do. -/
theorem spans_le {e : α} {f : Forest (α × α) α} (hx : ∀ x ∈ f.tops Prod.fst id, x ≤ e)
    (hk : ∀ k ∈ f.zones, k.2 ≤ e) : ∀ a ∈ spans f, a.2 ≤ e := by
  induction f with
  | nil => exact List.forall_mem_nil _
  | zone k kids rest ihk ihr =>
    refine List.forall_mem_cons.mpr ⟨hk k List.mem_cons_self, ?_⟩
    exact ihr (fun x hx' => hx x (List.mem_cons_of_mem _ hx'))
      fun k hk' => hk k (List.mem_cons_of_mem _ hk')
  | leaf x rest ih =>
    refine List.forall_mem_cons.mpr ⟨hx x List.mem_cons_self, ?_⟩
    exact ih (fun x hx' => hx x (List.mem_cons_of_mem _ hx')) hk

/-- EXACT: a zone encloses a row of nodes behind its start when the last of them ends in time. -/
theorem encloses_iff {z : α × α} {kids : Forest (α × α) α} (hz : z.1 ≤ z.2)
    (hrow : Row (spans kids)) (hlo : ∀ a ∈ spans kids, z.1 ≤ a.1) :
    Encloses z kids ↔ ∀ a ∈ (spans kids).getLast?, a.2 ≤ z.2 := by
  rw [← hrow.forall_le_iff z.2]
  have hstarts : (spans kids).map Prod.fst = kids.tops Prod.fst id :=
    Forest.map_tops Prod.fst id (fun x => (x, x)) kids
  have hzones : kids.zones.Sublist (spans kids) := by
    have hsub := kids.zones_sublist id fun x => (x, x)
    rwa [List.map_id] at hsub
  constructor
  · intro h a ha
    exact spans_le (fun x hx => (h.contains x hx).2) (fun k hk => (h.wholes k hk).2) a ha
  · intro hall
    refine ⟨?_, ?_, (zones_row hrow).apart, ?_⟩
    · rw [← hstarts]
      intro x hx
      obtain ⟨a, ha, rfl⟩ := List.mem_map.mp hx
      exact ⟨hlo a ha, (hrow.proper a ha).trans (hall a ha)⟩
    · intro k hk
      exact ⟨hlo k (hzones.subset hk), hall k (hzones.subset hk)⟩
    · exact (zones_row hrow).sum_le hz (fun k hk => hlo k (hzones.subset hk))
        fun k hk => hall k (hzones.subset hk)

/-- EXACT: an orderly forest is nested when the last node inside each zone ends in time. -/
theorem nested_iff {f : Forest (α × α) α} (h : Orderly f) : Nested f ↔ LastInTime f := by
  constructor
  · intro hn
    refine (hn.2.and h.2).imp ?_
    rintro z kids ⟨henc, hz, hrow, hlo⟩
    exact (encloses_iff hz hrow hlo).mp henc
  · intro hlast
    refine ⟨(zones_row h.1).apart, (hlast.and h.2).imp ?_⟩
    rintro z kids ⟨hend, hz, hrow, hlo⟩
    exact (encloses_iff hz hrow hlo).mpr hend

/-! ### Clock readings -/

variable {ζ σ : Type*}

omit [AddCommGroup α] [IsOrderedAddMonoid α] in
/-- Where the word of a forest is a nondecreasing list of clock readings, intervals that start at
    the opening and end by the closing are orderly. -/
theorem orderly_of_sorted {opens closes cut : ζ → α} {point : σ → α} {f : Forest ζ σ}
    (hcut : ∀ z, opens z ≤ closes z → opens z ≤ cut z ∧ cut z ≤ closes z)
    (hs : (f.tokens opens closes point).Pairwise (· ≤ ·)) :
    Orderly (f.map (fun z => (opens z, cut z)) point) := by
  have hstart : ∀ (g : Forest ζ σ) {a : α × α},
      a ∈ spans (g.map (fun z => (opens z, cut z)) point) →
        a.1 ∈ g.tokens opens closes point := by
    intro g a ha
    rw [spans, Forest.tops_map] at ha
    refine g.tops_subset_tokens opens closes point ?_
    have hfst := List.mem_map_of_mem (f := Prod.fst) ha
    rwa [Forest.map_tops] at hfst
  induction f with
  | nil => exact ⟨row_nil, trivial⟩
  | zone z kids rest ihk ihr =>
    rw [Forest.tokens, List.pairwise_cons, List.pairwise_append, List.pairwise_cons] at hs
    obtain ⟨hopen, hkids, ⟨hclose, hrest⟩, -⟩ := hs
    have hz : opens z ≤ closes z :=
      hopen _ (List.mem_append_right _ List.mem_cons_self)
    obtain ⟨hlo, hhi⟩ := hcut z hz
    obtain ⟨hrowk, hallk⟩ := ihk hkids
    obtain ⟨hrowr, hallr⟩ := ihr hrest
    refine ⟨hrowr.cons hlo ?_, ⟨hlo, hrowk, ?_⟩, hallk, hallr⟩
    · intro a ha
      exact hhi.trans (hclose a.1 (hstart rest ha))
    · intro a ha
      exact hopen a.1 (List.mem_append_left _ (hstart kids ha))
  | leaf x rest ih =>
    rw [Forest.tokens, List.pairwise_cons] at hs
    obtain ⟨hrow, hall⟩ := ih hs.2
    exact ⟨hrow.cons (le_refl (point x)) fun a ha => hs.1 a.1 (hstart rest ha), hall⟩

end Nested

/-! ### Nodes that name their parents -/

namespace Forest

variable {ν : Type*} {key parent : ν → ℕ} {isZone : ν → Bool} {p : ℕ} {f : Forest ν ν}

theorem mem_post_zone {a e : ν} {kids rest : Forest ν ν} :
    e ∈ (zone a kids rest).post ↔ e ∈ kids.post ∨ e = a ∨ e ∈ rest.post := by
  rw [post, List.mem_append, List.mem_cons]

/-- Every node names `p` or the key of a zone. -/
theorem Linked.parent_mem (hf : Linked key parent isZone p f) :
    ∀ e ∈ f.post, parent e = p ∨ ∃ c ∈ f.post, isZone c = true ∧ parent e = key c := by
  induction f generalizing p with
  | nil => exact List.forall_mem_nil _
  | zone a kids rest ihk ihr =>
    obtain ⟨hpa, hz, hkids, hrest⟩ := hf
    intro e he
    rcases mem_post_zone.mp he with he | rfl | he
    · right
      rcases ihk hkids e he with hp | ⟨c, hc, hcz, hcp⟩
      · exact ⟨a, mem_post_zone.mpr (Or.inr (Or.inl rfl)), hz, hp⟩
      · exact ⟨c, mem_post_zone.mpr (Or.inl hc), hcz, hcp⟩
    · exact Or.inl hpa
    · rcases ihr hrest e he with hp | ⟨c, hc, hcz, hcp⟩
      · exact Or.inl hp
      · exact Or.inr ⟨c, mem_post_zone.mpr (Or.inr (Or.inr hc)), hcz, hcp⟩
  | leaf a rest ih =>
    obtain ⟨hpa, -, hrest⟩ := hf
    intro e he
    rcases List.mem_cons.mp he with rfl | he
    · exact Or.inl hpa
    · rcases ih hrest e he with hp | ⟨c, hc, hcz, hcp⟩
      · exact Or.inl hp
      · exact Or.inr ⟨c, List.mem_cons_of_mem a hc, hcz, hcp⟩

/-- The nodes of a list that name the key `k`. -/
def naming (parent : ν → ℕ) (k : ℕ) (l : List ν) : List ν := l.filter fun e => decide (parent e = k)

theorem mem_naming {k : ℕ} {l : List ν} {e : ν} :
    e ∈ naming parent k l ↔ e ∈ l ∧ parent e = k := by
  rw [naming, List.mem_filter, decide_eq_true_iff]

theorem naming_append (k : ℕ) (l l' : List ν) :
    naming parent k (l ++ l') = naming parent k l ++ naming parent k l' :=
  List.filter_append l l'

theorem naming_cons_self {e : ν} {k : ℕ} (l : List ν) (h : parent e = k) :
    naming parent k (e :: l) = e :: naming parent k l :=
  List.filter_cons_of_pos (decide_eq_true h)

theorem naming_cons_other {e : ν} {k : ℕ} (l : List ν) (h : parent e ≠ k) :
    naming parent k (e :: l) = naming parent k l :=
  List.filter_cons_of_neg (by rwa [decide_eq_true_iff])

/-- Nobody names a key that is neither `p` nor a node's. -/
theorem Linked.naming_foreign (hf : Linked key parent isZone p f) {k : ℕ} (hp : k ≠ p)
    (hk : k ∉ f.post.map key) : naming parent k f.post = [] := by
  rw [List.eq_nil_iff_forall_not_mem]
  intro e he
  obtain ⟨hmem, rfl⟩ := mem_naming.mp he
  rcases hf.parent_mem e hmem with hpe | ⟨c, hc, -, hpe⟩
  · exact hp hpe
  · exact hk (hpe ▸ List.mem_map_of_mem hc)

/-- The nodes that name `p` are the nodes at the top. -/
theorem Linked.naming_root (hf : Linked key parent isZone p f) (hp : p ∉ f.post.map key) :
    naming parent p f.post = f.tops id id := by
  induction f with
  | nil => rfl
  | zone a kids rest ihk ihr =>
    obtain ⟨hpa, -, hkids, hrest⟩ := hf
    rw [post, List.map_append, List.map_cons, List.mem_append, List.mem_cons, not_or, not_or] at hp
    obtain ⟨hpk, hne, hpr⟩ := hp
    rw [post, naming_append, hkids.naming_foreign hne hpk, List.nil_append,
      naming_cons_self _ hpa, ihr hrest hpr]
    rfl
  | leaf a rest ih =>
    obtain ⟨hpa, -, hrest⟩ := hf
    rw [post, List.map_cons, List.mem_cons, not_or] at hp
    rw [post, naming_cons_self _ hpa, ih hrest hp.2]
    rfl

theorem allZones_mem (f : Forest ν ν) : f.AllZones fun z _ => z ∈ f.post := by
  induction f with
  | nil => trivial
  | zone a kids rest ihk ihr =>
    exact ⟨mem_post_zone.mpr (Or.inr (Or.inl rfl)),
      ihk.imp fun z _ hz => mem_post_zone.mpr (Or.inl hz),
      ihr.imp fun z _ hz => mem_post_zone.mpr (Or.inr (Or.inr hz))⟩
  | leaf a rest ih => exact ih.imp fun z _ hz => List.mem_cons_of_mem a hz

/-- With distinct keys, the nodes that name a zone are those at the top of what is inside it. -/
theorem Linked.naming_zone (hf : Linked key parent isZone p f) (hnd : (f.post.map key).Nodup)
    (hp : p ∉ f.post.map key) :
    f.AllZones fun z kids => naming parent (key z) f.post = kids.tops id id := by
  induction f generalizing p with
  | nil => trivial
  | zone a kids rest ihk ihr =>
    obtain ⟨hpa, -, hkids, hrest⟩ := hf
    rw [post, List.map_append, List.map_cons] at hnd hp
    rw [List.mem_append, List.mem_cons, not_or, not_or] at hp
    obtain ⟨hpk, hne, hpr⟩ := hp
    obtain ⟨hndk, hndr, hdisj⟩ := List.nodup_append.mp hnd
    obtain ⟨har, hndr⟩ := List.nodup_cons.mp hndr
    have hak : key a ∉ kids.post.map key := fun h => hdisj _ h _ List.mem_cons_self rfl
    have hkr : ∀ k ∈ kids.post.map key, k ∉ rest.post.map key := fun k hk hr =>
      hdisj k hk k (List.mem_cons_of_mem _ hr) rfl
    simp only [AllZones, post, naming_append]
    refine ⟨?_, ((ihk hkids hndk hak).and kids.allZones_mem).imp ?_,
      ((ihr hrest hndr hpr).and rest.allZones_mem).imp ?_⟩
    · rw [hkids.naming_root hak, naming_cons_other _ (hpa.trans_ne hne),
        hrest.naming_foreign (Ne.symm hne) har, List.append_nil]
    · rintro z kids' ⟨hz, hmem⟩
      have hzk : key z ∈ kids.post.map key := List.mem_map_of_mem hmem
      have hzp : p ≠ key z := fun he => hpk (he ▸ hzk)
      rw [hz, naming_cons_other _ (hpa.trans_ne hzp),
        hrest.naming_foreign (Ne.symm hzp) (hkr _ hzk), List.append_nil]
    · rintro z kids' ⟨hz, hmem⟩
      have hzr : key z ∈ rest.post.map key := List.mem_map_of_mem hmem
      have hzp : p ≠ key z := fun he => hpr (he ▸ hzr)
      have hza : key z ≠ key a := fun he => har (he ▸ hzr)
      rw [hkids.naming_foreign hza fun hk => hkr _ hk hzr, List.nil_append,
        naming_cons_other _ (hpa.trans_ne hzp), hz]
  | leaf a rest ih =>
    obtain ⟨hpa, -, hrest⟩ := hf
    rw [post, List.map_cons] at hnd hp
    rw [List.mem_cons, not_or] at hp
    obtain ⟨-, hndr⟩ := List.nodup_cons.mp hnd
    refine ((ih hrest hndr hp.2).and rest.allZones_mem).imp ?_
    rintro z kids ⟨hz, hmem⟩
    have hzp : p ≠ key z := fun he => hp.2 (he ▸ List.mem_map_of_mem hmem)
    rw [post, naming_cons_other _ (hpa.trans_ne hzp), hz]

/-- In a linked forest `isZone` tells the zones from the leaves. -/
theorem Linked.filter_tops (hf : Linked key parent isZone p f) :
    (f.tops id id).filter isZone = f.zones := by
  induction f with
  | nil => rfl
  | zone a kids rest ihk ihr =>
    show (a :: rest.tops id id).filter isZone = a :: rest.zones
    rw [List.filter_cons_of_pos hf.2.1, ihr hf.2.2.2]
  | leaf a rest ih =>
    show (a :: rest.tops id id).filter isZone = rest.zones
    rw [List.filter_cons_of_neg (by rw [hf.2.1]; exact Bool.false_ne_true), ih hf.2.2]

/-- What is inside each zone is linked below its key. -/
theorem Linked.kids (hf : Linked key parent isZone p f) :
    f.AllZones fun z kids => Linked key parent isZone (key z) kids := by
  induction f generalizing p with
  | nil => trivial
  | zone a kids rest ihk ihr => exact ⟨hf.2.2.1, ihk hf.2.2.1, ihr hf.2.2.2⟩
  | leaf a rest ih => exact ih hf.2.2

/-- A property of the nodes that are zones is a property at every zone. -/
theorem Linked.allZones_iff (hf : Linked key parent isZone p f) (q : ν → Prop) :
    (∀ z ∈ f.post, isZone z = true → q z) ↔ f.AllZones fun z _ => q z := by
  induction f generalizing p with
  | nil => exact iff_of_true (List.forall_mem_nil _) trivial
  | zone a kids rest ihk ihr =>
    obtain ⟨-, hz, hkids, hrest⟩ := hf
    rw [post, List.forall_mem_append, List.forall_mem_cons, ihk hkids, ihr hrest, AllZones]
    constructor
    · rintro ⟨hk, ha, hr⟩
      exact ⟨ha hz, hk, hr⟩
    · rintro ⟨ha, hk, hr⟩
      exact ⟨hk, fun _ => ha, hr⟩
  | leaf a rest ih =>
    obtain ⟨-, hz, hrest⟩ := hf
    rw [post, List.forall_mem_cons, ih hrest, AllZones]
    refine and_iff_right ?_
    intro hza
    rw [hz] at hza
    cases hza

end Forest

section NestedNodes

open Forest

variable {α : Type*} [AddCommGroup α] [LinearOrder α] [IsOrderedAddMonoid α]
variable {ν : Type*} {key parent : ν → ℕ} {isZone : ν → Bool} {lo hi : ν → α} {p : ℕ}
  {f : Forest ν ν}

/-- Nesting as it is read off a list of nodes: a node is inside the zone whose key it names. -/
structure NestedNodes (key parent : ν → ℕ) (isZone : ν → Bool) (lo hi : ν → α) (l : List ν) :
    Prop where
  contains : ∀ z ∈ l, isZone z = true → ∀ e ∈ l, parent e = key z → lo z ≤ lo e ∧ lo e ≤ hi z
  wholes : ∀ z ∈ l, isZone z = true → ∀ k ∈ l, isZone k = true → parent k = key z →
    lo z ≤ lo k ∧ hi k ≤ hi z
  apart : ∀ j ∈ l, ∀ k ∈ l, isZone j = true → isZone k = true → parent j = parent k → j ≠ k →
    hi j ≤ lo k ∨ hi k ≤ lo j
  sum_le : ∀ z ∈ l, isZone z = true →
    (((naming parent (key z) l).filter isZone).map fun k => hi k - lo k).sum ≤ hi z - lo z

/-- The intervals of a forest of nodes; a leaf is where it starts. -/
def intervals (lo hi : ν → α) (f : Forest ν ν) : Forest (α × α) α :=
  f.map (fun z => (lo z, hi z)) lo

omit [AddCommGroup α] [LinearOrder α] [IsOrderedAddMonoid α] in
theorem tops_intervals (f : Forest ν ν) :
    (intervals lo hi f).tops Prod.fst id = (f.tops id id).map lo := by
  rw [intervals, tops_map, map_tops]
  rfl

omit [IsOrderedAddMonoid α] in
/-- A linked forest that is nested is nested as a list. -/
theorem nestedNodes_of_nested (hf : Linked key parent isZone p f) (hnd : (f.post.map key).Nodup)
    (hp : p ∉ f.post.map key) (h : Nested (intervals lo hi f)) :
    NestedNodes key parent isZone lo hi f.post := by
  have hzones : ∀ z ∈ f.post, isZone z = true → ∃ kids : Forest ν ν,
      naming parent (key z) f.post = kids.tops id id ∧
        (naming parent (key z) f.post).filter isZone = kids.zones ∧
        Encloses (lo z, hi z) (intervals lo hi kids) := by
    rw [hf.allZones_iff]
    have henc := (allZones_map Encloses _ _ f).mp h.2
    refine (((hf.naming_zone hnd hp).and hf.kids).and henc).imp ?_
    rintro z kids ⟨⟨hnames, hkids⟩, henc⟩
    exact ⟨kids, hnames, by rw [hnames, hkids.filter_tops], henc⟩
  have hrow : ∀ {l : List ν}, ((l.map fun z => (lo z, hi z)).Pairwise fun j k => j.2 ≤ k.1) →
      ∀ j ∈ l, ∀ k ∈ l, j ≠ k → hi j ≤ lo k ∨ hi k ≤ lo j := by
    intro l hl
    have hsymm : Std.Symm fun j k => hi j ≤ lo k ∨ hi k ≤ lo j := ⟨fun _ _ hjk => hjk.symm⟩
    exact ((List.pairwise_map.mp hl).imp fun hjk => Or.inl hjk).forall
  refine ⟨?_, ?_, ?_, ?_⟩
  · intro z hz hzz e he hez
    obtain ⟨kids, hnames, -, henc⟩ := hzones z hz hzz
    refine henc.contains (lo e) ?_
    rw [tops_intervals, ← hnames]
    exact List.mem_map_of_mem (mem_naming.mpr ⟨he, hez⟩)
  · intro z hz hzz k hk hkz hkp
    obtain ⟨kids, -, hfilter, henc⟩ := hzones z hz hzz
    refine henc.wholes (lo k, hi k) ?_
    rw [intervals, zones_map, ← hfilter]
    exact List.mem_map_of_mem (List.mem_filter.mpr ⟨mem_naming.mpr ⟨hk, hkp⟩, hkz⟩)
  · intro j hj k hk hjz hkz hjk
    rcases hf.parent_mem j hj with hroot | ⟨c, hc, hcz, hcp⟩
    · have hfilter : (naming parent p f.post).filter isZone = f.zones := by
        rw [hf.naming_root hp, hf.filter_tops]
      have hpair := h.1
      rw [intervals, zones_map, ← hfilter] at hpair
      exact hrow hpair j (List.mem_filter.mpr ⟨mem_naming.mpr ⟨hj, hroot⟩, hjz⟩) k
        (List.mem_filter.mpr ⟨mem_naming.mpr ⟨hk, hjk.symm.trans hroot⟩, hkz⟩)
    · obtain ⟨kids, -, hfilter, henc⟩ := hzones c hc hcz
      have hpair := henc.apart
      rw [intervals, zones_map, ← hfilter] at hpair
      exact hrow hpair j (List.mem_filter.mpr ⟨mem_naming.mpr ⟨hj, hcp⟩, hjz⟩) k
        (List.mem_filter.mpr ⟨mem_naming.mpr ⟨hk, hjk.symm.trans hcp⟩, hkz⟩)
  · intro z hz hzz
    obtain ⟨kids, -, hfilter, henc⟩ := hzones z hz hzz
    have hsum := henc.sum_le
    rw [intervals, zones_map, ← hfilter, List.map_map] at hsum
    exact hsum

/-- EXACT: an orderly linked forest is nested as a list when the last node inside each zone ends in
    time. -/
theorem nestedNodes_iff (hf : Linked key parent isZone p f) (hnd : (f.post.map key).Nodup)
    (hp : p ∉ f.post.map key) (h : Orderly (intervals lo hi f)) :
    NestedNodes key parent isZone lo hi f.post ↔ LastInTime (intervals lo hi f) := by
  constructor
  · intro hn
    refine (allZones_map _ _ _ f).mpr ?_
    have hmem := hf.allZones_iff (fun z => z ∈ f.post ∧ isZone z = true)
    have hself := hmem.mp fun z hz hzz => ⟨hz, hzz⟩
    refine ((hself.and (hf.naming_zone hnd hp)).and hf.kids).imp ?_
    rintro z kids ⟨⟨⟨hz, hzz⟩, hnames⟩, hkids⟩ a ha
    have hzones : (naming parent (key z) f.post).filter isZone = kids.zones := by
      rw [hnames, hkids.filter_tops]
    refine spans_le ?_ ?_ a (List.mem_of_getLast? ha)
    · intro x hx
      rw [← intervals, tops_intervals, ← hnames] at hx
      obtain ⟨e, he, rfl⟩ := List.mem_map.mp hx
      obtain ⟨he, hez⟩ := mem_naming.mp he
      exact (hn.contains z hz hzz e he hez).2
    · intro k hk
      rw [zones_map, ← hzones] at hk
      obtain ⟨c, hc, rfl⟩ := List.mem_map.mp hk
      obtain ⟨hc, hcz⟩ := List.mem_filter.mp hc
      obtain ⟨hc, hcp⟩ := mem_naming.mp hc
      exact (hn.wholes z hz hzz c hc hcz hcp).2
  · intro hlast
    exact nestedNodes_of_nested hf hnd hp ((nested_iff h).mpr hlast)

end NestedNodes

end Esp.Brackets
