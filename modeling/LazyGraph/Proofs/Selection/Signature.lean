import LazyGraph.Proofs.Document
import LazyGraph.Proofs.Selection.Memory

/-!
Signatures of the selections of one tree. Where neither keys nor aliases hold dots a signature tells
the selection, and a selection is remembered under its label and in no other place. So no selection
of a tree is lost when documents are made of them.
-/
namespace LazyGraph.Selection

namespace Call

variable {c : Call}

/-- Neither the key that a call asks for nor the alias that it gives holds a dot. -/
structure Undotted (c : Call) : Prop where
  key : '.' ∉ c.key.text.toList
  aliasName : ∀ a, c.aliasName = some a → '.' ∉ a.toList

theorem undotted_digest (c : Call) : '.' ∉ c.digest.toList := fun hdot =>
  absurd (mem_hexDigits_of_mem_short _ _ _ hdot) (by decide)

/-- A generated alias holds no dot either. -/
theorem Undotted.label (h : c.Undotted) : '.' ∉ c.label.toList := by
  cases ha : c.aliasName with
  | some a =>
      rw [label_of_alias ha]
      exact h.aliasName a ha
  | none =>
      by_cases harguments : c.arguments = []
      · rw [label_of_plain ha harguments]
        exact h.key
      · rw [label_of_arguments ha harguments, String.toList_append, String.toList_append]
        simp only [List.mem_append, not_or]
        exact ⟨⟨h.key, by decide⟩, c.undotted_digest⟩

end Call

namespace Forest

/-- Forests with their roots, as roots are planted and children are asked for. Whatever is asked for
in the tree of `top` holds no dot. -/
inductive Spread (top : Nat) : Forest → List Selection → Prop
  | empty : Spread top {} []
  | root {f : Forest} {roots : List Selection} (spread : Spread top f roots) (key : String)
    (aliasLength : Nat) :
    Spread top (f.newRoot key aliasLength).2 ((f.newRoot key aliasLength).1 :: roots)
  | call {f : Forest} {roots : List Selection} (spread : Spread top f roots) {c : Call}
    (known : c.parent ∈ f.handed roots)
    (undotted : c.parent.rootNode.id = top → c.Undotted) : Spread top (f.answer c).2 roots

variable {top : Nat} {f : Forest} {roots : List Selection} {s t x parent : Selection} {c : Call}

theorem Spread.sound (h : f.Spread top roots) : f.Sound roots := by
  induction h with
  | empty => exact Grown.empty.sound
  | root _ key aliasLength ih => exact ih.newRoot key aliasLength
  | call _ known _ ih => exact (ih.child known _ _ _ _).1

/-- Below the root no label of the tree holds a dot. -/
theorem Spread.undotted (h : f.Spread top roots) (hx : x ∈ f.handed roots)
    (htop : x.rootNode.id = top) : ∀ n ∈ x.ancestry.tail, '.' ∉ n.label.toList := by
  induction h generalizing x with
  | empty => cases hx
  | root _ key aliasLength ih =>
      rcases List.mem_cons.mp hx with rfl | hx
      · exact fun n hn => nomatch hn
      · exact ih hx htop
  | @call f roots spread c known undotted ih =>
      rcases mem_handed_child hx with hx | ⟨hunder, hnode⟩
      · exact ih hx htop
      · have hparent : c.parent.rootNode.id = top := rootNode_of_above hunder.above ▸ htop
        have hlabel : x.node.label = c.label := by
          rw [hnode]
          rfl
        have hne : c.parent.ancestry ≠ [] := List.reverse_ne_nil_iff.mpr (List.cons_ne_nil _ _)
        rw [ancestry_of_above hunder.above, List.tail_append_of_ne_nil hne]
        refine List.forall_mem_append.mpr ⟨ih known hparent, List.forall_mem_singleton.mpr ?_⟩
        rw [hlabel]
        exact (undotted hparent).label

/-- A signature tells the selection of its tree, whatever the root is called. -/
theorem Spread.eq_of_signature (h : f.Spread top roots) (hs : s ∈ f.handed roots)
    (ht : t ∈ f.handed roots) (hstop : s.rootNode.id = top) (httop : t.rootNode.id = top)
    (he : s.signature = t.signature) : s = t := by
  obtain ⟨root, hroot, nodes, hnodes, hsroot⟩ := h.sound.exists_root hs
  obtain ⟨other, hother, others, hothers, htroot⟩ := h.sound.exists_root ht
  have hid : root.id = other.id := by
    rw [hsroot] at hstop
    rw [htroot] at httop
    exact hstop.trans httop.symm
  obtain rfl := h.sound.eq_of_id (mem_handed.mpr (.inl hroot)) (mem_handed.mpr (.inl hother)) hid
  have hundotted := h.undotted hs hstop
  have hundotted' := h.undotted ht httop
  rw [hnodes, List.tail_cons] at hundotted
  rw [hothers, List.tail_cons] at hundotted'
  rw [signature, signature, hnodes, hothers, List.map_cons, List.map_cons] at he
  have hlabels : nodes.map (·.label) = others.map (·.label) := by
    refine Text.dotted_cons_inj ?_ ?_ he
    · exact List.forall_mem_map.mpr hundotted
    · exact List.forall_mem_map.mpr hundotted'
  refine h.sound.eq_of_labels hs ht (hstop.trans httop.symm) ?_
  rw [hnodes, hothers, List.map_cons, List.map_cons, hlabels]

/-- An entry is found at its place and nowhere else. -/
theorem Sound.child?_eq_some_iff (h : f.Sound roots) {g : Growth} (hg : g ∈ f.growth) {p : Nat}
    {label : String} :
    f.child? p label = some g.child ↔ p = g.parent ∧ label = g.child.node.label := by
  constructor
  · intro hfound
    obtain ⟨g', hg', he⟩ := Option.map_eq_some_iff.mp hfound
    have hids : (f.growth.map (·.child.id)).Nodup := by
      have hall := h.ids
      rw [handed, List.map_append, List.map_map] at hall
      exact hall.of_append_right
    have hplace := List.find?_some hg'
    obtain rfl := List.inj_on_of_nodup_map hids (List.mem_of_find?_eq_some hg') hg
      (congrArg Selection.id he)
    rw [Bool.and_eq_true, beq_iff_eq, beq_iff_eq] at hplace
    exact ⟨hplace.1.symm, hplace.2.symm⟩
  · rintro ⟨rfl, rfl⟩
    rw [child?, Option.map_eq_some_iff]
    cases hfound : f.growth.find? fun g' =>
        g'.parent == g.parent && g'.child.node.label == g.child.node.label with
    | none => exact absurd (List.find?_eq_none.mp hfound g hg) (by simp)
    | some g' =>
        have hplace := List.find?_some hfound
        rw [Bool.and_eq_true, beq_iff_eq, beq_iff_eq] at hplace
        obtain rfl := List.inj_on_of_nodup_map h.labels (List.mem_of_find?_eq_some hfound) hg
          (Prod.ext hplace.1 hplace.2)
        exact ⟨g', rfl, rfl⟩

/-- A selection below another one is remembered there under its label, and in no other place. -/
theorem Sound.remembered_iff (h : f.Sound roots) (hs : s ∈ f.handed roots)
    (hp : s.parent? = some parent) :
    parent ∈ f.handed roots ∧
      ∀ p label, f.child? p label = some s ↔ p = parent.id ∧ label = s.node.label := by
  rcases mem_handed.mp hs with hroot | ⟨g, hg, rfl⟩
  · rw [parent?, (h.tops s hroot).above] at hp
    cases hp
  · obtain ⟨other, hother, hunder⟩ := h.grown g hg
    have hparent : g.child.parent? = some other := by
      rw [parent?, hunder.above, hunder.aliasLength]
    obtain rfl := Option.some.inj (hparent.symm.trans hp)
    refine ⟨hother, fun p label => ?_⟩
    rw [h.child?_eq_some_iff hg, hunder.id]

/-- In a tree in which all keys and aliases that were asked for hold no dot, selections with one
signature are one node. A selection is remembered under its parent, by the text of its alias or else
of its key, and nowhere else; and whatever a call finds or makes has the text that it asked for. -/
theorem signature_identifies (h : f.Spread top roots) (hs : s ∈ f.handed roots)
    (hstop : s.rootNode.id = top) :
    (∀ t ∈ f.handed roots, t.rootNode.id = top → (s.signature = t.signature ↔ s.id = t.id)) ∧
    (∀ parent, s.parent? = some parent → parent ∈ f.handed roots ∧
      ∀ p label, f.child? p label = some s ↔ p = parent.id ∧ label = s.node.label) ∧
    ∀ c : Call, c.parent = s → (f.answer c).1.node.label = c.label := by
  refine ⟨fun t ht httop => ⟨fun he => ?_, fun he => ?_⟩, fun parent hp => ?_, ?_⟩
  · rw [h.eq_of_signature hs ht hstop httop he]
  · rw [h.sound.eq_of_id hs ht he]
  · exact h.sound.remembered_iff hs hp
  · rintro c rfl
    exact (h.sound.child_under hs c.key c.aliasName c.arguments c.isBranch).2

/-! ### One name in two places -/

/-- The user, called `me`. -/
def askMe : Call := { parent := queryRoot.1, key := .field "user", aliasName := some "me" }

def askUsers : Call := { parent := queryRoot.1, key := .field "users" }

/-- The tree of the query with the user and all users. -/
def withUsers : Forest := ((queryRoot.2.answer askMe).2.answer askUsers).2

def askFirst : Call := { parent := ((queryRoot.2.answer askMe).2.answer askUsers).1, key := .index 0 }

/-- A field of the first user that is called `me` as well. -/
def askFirstMe : Call := { parent := (withUsers.answer askFirst).1, key := .field "me" }

/-- Both are called `me`, and both are remembered by this label, but their signatures differ. -/
theorem signature_identifies_me :
    ∃ roots, ((withUsers.answer askFirst).2.answer askFirstMe).2.Spread queryRoot.1.id roots ∧
    ∃ s ∈ ((withUsers.answer askFirst).2.answer askFirstMe).2.handed roots,
    ∃ t ∈ ((withUsers.answer askFirst).2.answer askFirstMe).2.handed roots,
      s.rootNode.id = queryRoot.1.id ∧ t.rootNode.id = queryRoot.1.id ∧
      s.node.label = "me" ∧ t.node.label = "me" ∧ s.signature ≠ t.signature ∧
      ((withUsers.answer askFirst).2.answer askFirstMe).2.child? queryRoot.1.id "me" = some s := by
  have start : queryRoot.2.Spread queryRoot.1.id [queryRoot.1] :=
    .root .empty "query" defaultAliasLength
  have hroot : queryRoot.1 ∈ queryRoot.2.handed [queryRoot.1] := List.mem_cons_self
  have first := start.call (c := askMe) hroot fun _ =>
    ⟨by decide, fun a ha => by cases ha; decide⟩
  obtain ⟨hme, hmore⟩ := (start.sound.child hroot askMe.key askMe.aliasName [] false).2
  have second := first.call (c := askUsers) (hmore hroot) fun _ => ⟨by decide, nofun⟩
  obtain ⟨husers, hmore'⟩ :=
    (first.sound.child (hmore hroot) askUsers.key none [] false).2
  have third := second.call (c := askFirst) husers fun _ => ⟨by decide, nofun⟩
  obtain ⟨hfirst, hmore''⟩ := (second.sound.child husers askFirst.key none [] false).2
  have fourth := third.call (c := askFirstMe) hfirst fun _ => ⟨by decide, nofun⟩
  obtain ⟨hother, hlast⟩ := (third.sound.child hfirst askFirstMe.key none [] false).2
  have hs := hlast (hmore'' (hmore' hme))
  obtain ⟨told, remembered, _⟩ := signature_identifies fourth hs rfl
  refine ⟨_, fourth, _, hs, _, hother, rfl, rfl, rfl, rfl, fun he => ?_, ?_⟩
  · exact absurd ((told _ hother rfl).mp he) (by decide)
  · exact ((remembered queryRoot.1 rfl).2 _ _).mpr ⟨rfl, rfl⟩

/-- So none is lost when documents are made of selections of one tree. -/
theorem Spread.mem_arrange (h : f.Spread top roots) {ss : List Selection}
    (hss : ∀ x ∈ ss, x ∈ f.handed roots ∧ x.rootNode.id = top) :
    s ∈ Document.arrange ss ↔ s ∈ ss := by
  refine ⟨Document.mem_of_mem_arrange, fun hs => (Document.mem_arrange_of_told ?_).mpr hs⟩
  exact fun t ht he => h.eq_of_signature (hss t ht).1 (hss s hs).1 (hss t ht).2 (hss s hs).2 he

end Forest
end LazyGraph.Selection
