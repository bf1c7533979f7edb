import LazyGraph.Proofs.Document.Memory
import LazyGraph.Proofs.Document.Variables

/-!
What occurs in the tree of a document: the ways down of the selections that it was compiled for,
told by the texts of their heads, and nothing else.
-/
namespace LazyGraph.Document

open Selection (Node)

namespace FieldTree

/-- A way down in a tree, with the tree at its end. -/
inductive Holds : FieldTree → List Head → FieldTree → Prop
  | here (t : FieldTree) : Holds t [] t
  | child {t u v : FieldTree} {head : Head} {way : List Head} (first : (head, u) ∈ t.children)
    (rest : Holds u way v) : Holds t (head :: way) v

/-- The tree at the end of the way down with these texts. -/
def at? (t : FieldTree) : List String → Option FieldTree
  | [] => some t
  | text :: rest => (t.below? text).bind (at? · rest)

/-- The heads that stand side by side are in the order of their texts. -/
inductive Ordered : FieldTree → Prop
  | node {children : List (Head × FieldTree)}
    (texts : children.Pairwise fun p q => p.1.text < q.1.text)
    (parts : ∀ q ∈ children, Ordered q.2) : Ordered (.node children)

variable {t u v : FieldTree} {head : Head} {way : List Head} {children : List (Head × FieldTree)}
  {texts : List String}

theorem Ordered.empty : Ordered empty :=
  .node .nil fun _ h => absurd h List.not_mem_nil

theorem pairwise_put (h : children.Pairwise fun p q => p.1.text < q.1.text) :
    (put head t children).Pairwise fun p q => p.1.text < q.1.text := by
  induction children with
  | nil => exact List.pairwise_singleton _ _
  | cons q children ih =>
      obtain ⟨hq, hrest⟩ := List.pairwise_cons.mp h
      rw [put]
      split
      · exact List.pairwise_cons.mpr ⟨hq, hrest⟩
      · rename_i hne
        split
        · rename_i hlt
          refine List.pairwise_cons.mpr ⟨List.forall_mem_cons.mpr ⟨hlt, fun p hp => ?_⟩, h⟩
          exact String.lt_trans hlt (hq p hp)
        · rename_i hge
          have hlt : q.1.text < head.text := by
            refine Decidable.byContradiction fun hle => ?_
            exact hne (String.le_antisymm (String.not_lt.mp hle) (String.not_lt.mp hge))
          refine List.pairwise_cons.mpr ⟨?_, ih hrest⟩
          exact forall_mem_put hlt (fun _ _ h => h) hq

theorem Ordered.below_getD (h : t.Ordered) (text : String) :
    ((t.below? text).getD FieldTree.empty).Ordered := by
  cases h with
  | @node children texts parts =>
      cases hu : (FieldTree.node children).below? text with
      | none => exact .empty
      | some u =>
          obtain ⟨q, hq, rfl⟩ := Option.map_eq_some_iff.mp hu
          exact parts q (List.mem_of_find?_eq_some hq)

theorem Ordered.insert (h : t.Ordered) (way : List Head) : (t.insert way).Ordered := by
  induction way generalizing t with
  | nil => exact h
  | cons head rest ih =>
      have hbelow := ih (h.below_getD head.text)
      cases h with
      | node texts parts =>
          exact .node (pairwise_put texts) (forall_mem_put hbelow (fun _ _ _ => hbelow) parts)

theorem Ordered.below?_of_mem (h : t.Ordered) (hm : (head, u) ∈ t.children) :
    t.below? head.text = some u := by
  cases h with
  | @node children texts parts =>
      clear parts
      induction children with
      | nil => exact absurd hm List.not_mem_nil
      | cons q children ih =>
          obtain ⟨hq, hrest⟩ := List.pairwise_cons.mp texts
          rw [below?_cons]
          rcases List.mem_cons.mp hm with rfl | hm
          · exact if_pos rfl
          · rw [if_neg (String.ne_of_lt (hq _ hm))]
            exact ih hrest hm

/-- A way down is told by the texts of its heads. -/
theorem Ordered.at?_of_holds (h : t.Ordered) (hway : t.Holds way u) :
    t.at? (way.map Head.text) = some u := by
  induction hway with
  | here t => rfl
  | @child t v u head way first rest ih =>
      have hbelow := h.below?_of_mem first
      rw [List.map_cons, at?, hbelow]
      have hv := h.below_getD head.text
      rw [hbelow] at hv
      exact ih hv

theorem Throughout.of_holds {P : Head → Prop} (h : t.Throughout P) (hway : t.Holds way u) :
    (∀ x ∈ way, P x) ∧ u.Throughout P := by
  induction hway with
  | here t => exact ⟨fun _ h => absurd h List.not_mem_nil, h⟩
  | @child t v u head way first rest ih =>
      obtain ⟨hhead, hpart⟩ := h.child first
      obtain ⟨hway, hend⟩ := ih hpart
      exact ⟨List.forall_mem_cons.mpr ⟨hhead, hway⟩, hend⟩

theorem Legal.of_holds (h : t.Legal) (hway : t.Holds way u) : ∀ x ∈ way, x.isLegal = true :=
  ((legal_iff_throughout.mp h).of_holds hway).1

theorem at?_concat (t : FieldTree) (texts : List String) (text : String) :
    t.at? (texts ++ [text]) = (t.at? texts).bind (·.below? text) := by
  induction texts generalizing t with
  | nil => exact Option.bind_fun_some _
  | cons first rest ih =>
      rw [List.cons_append, at?, at?]
      cases t.below? first with
      | none => rfl
      | some u => exact ih u

/-- What was put into a tree occurs in it, with what occurred before. -/
theorem isSome_at?_insert : ((t.insert way).at? texts).isSome ↔
    (t.at? texts).isSome ∨ texts <+: way.map Head.text := by
  induction way generalizing t texts with
  | nil =>
      rw [insert, List.map_nil, List.prefix_nil]
      refine ⟨.inl, fun h => h.elim id ?_⟩
      rintro rfl
      rfl
  | cons head rest ih =>
      cases texts with
      | nil => exact iff_of_true rfl (.inl rfl)
      | cons text texts =>
          rw [at?, at?, below?_insert, List.map_cons, List.cons_prefix_cons]
          by_cases he : head.text = text
          · subst he
            rw [if_pos rfl, Option.bind_some, ih]
            cases t.below? head.text with
            | some u => simp
            | none =>
                cases texts with
                | nil => simp [at?]
                | cons next texts => simp [at?, FieldTree.empty, below?, FieldTree.children]
          · rw [if_neg he]
            simp [Ne.symm he]

end FieldTree

/-! ### Documents -/

open FieldTree (Ordered Legal)
open Variables (Kept)

/-- In the tree of ways occur the ways, with the heads that they have in the end. -/
theorem isSome_at?_grow (ways : List (List Node)) {texts : List String} (hne : texts ≠ []) :
    ((grow ways).1.at? texts).isSome ↔
      ∃ way ∈ ways, texts <+: (heads (grow ways).2 way).1.map Head.text := by
  have hfold : ∀ acc : FieldTree × Variables,
      let r := ways.foldl
        (fun acc way => (acc.1.insert (heads acc.2 way).1, (heads acc.2 way).2)) acc
      Kept acc.2 r.2 ∧ ((r.1.at? texts).isSome ↔ (acc.1.at? texts).isSome ∨
        ∃ way ∈ ways, texts <+: (heads r.2 way).1.map Head.text) := by
    induction ways with
    | nil => exact fun acc => ⟨.refl _, by simp⟩
    | cons way ways ih =>
        intro acc
        simp only [List.foldl_cons]
        obtain ⟨hkept, hrest⟩ := ih (acc.1.insert (heads acc.2 way).1, (heads acc.2 way).2)
        refine ⟨(kept_heads acc.2 way).trans hkept, hrest.trans ?_⟩
        rw [FieldTree.isSome_at?_insert, List.exists_mem_cons_iff, heads_again hkept]
        exact or_assoc
  obtain ⟨_, hall⟩ := hfold (.empty, [])
  refine hall.trans (or_iff_right ?_)
  cases texts with
  | nil => exact absurd rfl hne
  | cons text texts => simp [FieldTree.at?, FieldTree.empty, FieldTree.below?, FieldTree.children]

theorem ordered_grow (ways : List (List Node)) : (grow ways).1.Ordered := by
  refine List.foldlRecOn (motive := fun acc : FieldTree × Variables => acc.1.Ordered) ways _ .empty ?_
  intro acc hacc way _
  exact hacc.insert _

theorem legal_grow {ways : List (List Node)} (h : ∀ way ∈ ways, ∀ n ∈ way, n.isLegal = true) :
    (grow ways).1.Legal := by
  refine List.foldlRecOn (motive := fun acc : FieldTree × Variables => acc.1.Legal) ways _ .empty ?_
  intro acc hacc way hway
  exact hacc.insert (isLegal_heads acc.2 (h way hway))

/-- The heads that a document writes for a selection. -/
def headsOf (d : Document) (s : Selection) : List Head := (heads d.declared s.ancestry.tail).1

theorem route?_eq_some_iff {s : Selection} {r : Route} : route? s = .ok (some r) ↔
    s.operation? = some r.operation ∧ ∃ top, s.ancestry = top :: r.first :: r.rest := by
  rw [route?]
  cases s.operation? with
  | none => simp
  | some operation =>
      constructor
      · intro h
        simp only at h
        split at h
        · rename_i top first rest he
          obtain rfl := Option.some.inj (Except.ok.inj h)
          exact ⟨rfl, top, he⟩
        · cases h
      · rintro ⟨ho, top, he⟩
        obtain rfl := Option.some.inj ho
        simp only [he]

/-- A document is grown of the routes of its group. -/
theorem exists_group {ss : List Selection} {operationName : Option String}
    {documents : List Document} (h : ofArranged ss operationName = .ok documents) {d : Document}
    (hd : d ∈ documents) : ∃ rs : List Route, ∃ group,
      grow (rs.map fun r => r.first :: r.rest) = (d.fields, d.declared) ∧
      ∀ r, r ∈ rs ↔ (∃ s ∈ ss, route? s = .ok (some r)) ∧ r.operation = d.operation ∧
        r.group = group := by
  rw [ofArranged] at h
  cases hroutes : ss.mapM route? with
  | error e =>
      rw [hroutes] at h
      cases h
  | ok routes =>
      rw [hroutes] at h
      obtain rfl := Except.ok.inj h
      obtain ⟨operation, _, hd⟩ := List.mem_flatMap.mp hd
      obtain ⟨rs, hrs, hd⟩ := List.mem_filterMap.mp hd
      obtain ⟨group, _, rfl⟩ := List.mem_map.mp hrs
      rw [ofGroup?] at hd
      simp only at hd
      split at hd
      · cases hd
      · obtain rfl := Option.some.inj hd
        refine ⟨_, group, rfl, fun r => ?_⟩
        have hmem : r ∈ routes.filterMap (fun r => r) ↔ ∃ s ∈ ss, route? s = .ok (some r) := by
          rw [List.mem_filterMap]
          refine Iff.trans ⟨?_, fun hr => ⟨_, hr, rfl⟩⟩ (mem_iff_of_mapM_ok hroutes)
          rintro ⟨_, hr, rfl⟩
          exact hr
        simp only [List.mem_filter, beq_iff_eq, hmem, and_assoc]

/-- The head of a place stands for its label. -/
theorem exists_heads_cons {n : Node} (h : n.isPlace = true) (vs : Variables) (rest : List Node) :
    ∃ head below, (heads vs (n :: rest)).1 = head :: below ∧ head.responseKey? = some n.label := by
  rw [Node.isPlace, Bool.and_eq_true, Bool.and_eq_true, Bool.not_eq_true', Bool.not_eq_true',
    Bool.not_eq_true'] at h
  obtain ⟨⟨hindex, hmarker⟩, hbranch⟩ := h
  cases hkey : n.key with
  | index position =>
      rw [hkey] at hindex
      cases hindex
  | field name =>
      simp only [heads, hkey, hmarker, hbranch, Bool.false_eq_true, if_false]
      refine ⟨_, _, rfl, ?_⟩
      rw [Node.label, hkey]
      rfl

section

variable {ss : List Selection} {operationName : Option String} {documents : List Document}
  {d : Document} (h : ofArranged ss operationName = .ok documents) (hd : d ∈ documents)

include h hd

/-- What occurs in a document belongs to a selection. -/
theorem exists_of_isSome_at? {texts : List String} (hne : texts ≠ [])
    (ht : (d.fields.at? texts).isSome) :
    ∃ s ∈ ss, s.operation? = some d.operation ∧ texts <+: (d.headsOf s).map Head.text := by
  obtain ⟨rs, group, hgrow, hrs⟩ := exists_group h hd
  have hall := isSome_at?_grow (rs.map fun r => r.first :: r.rest) hne
  rw [hgrow] at hall
  obtain ⟨way, hway, hpre⟩ := hall.mp ht
  obtain ⟨r, hr, rfl⟩ := List.mem_map.mp hway
  obtain ⟨⟨s, hs, hroute⟩, hoperation, _⟩ := (hrs r).mp hr
  obtain ⟨ho, top, he⟩ := route?_eq_some_iff.mp hroute
  refine ⟨s, hs, hoperation ▸ ho, ?_⟩
  rw [headsOf, he]
  exact hpre

variable (hg : Selection.Gathered ss)

include hg

theorem legal_fields : d.fields.Legal := by
  obtain ⟨rs, group, hgrow, hrs⟩ := exists_group h hd
  have hlegal : ∀ way ∈ rs.map fun r => r.first :: r.rest, ∀ n ∈ way, n.isLegal = true := by
    intro way hway n hn
    obtain ⟨r, hr, rfl⟩ := List.mem_map.mp hway
    obtain ⟨⟨s, hs, hroute⟩, _⟩ := (hrs r).mp hr
    obtain ⟨_, top, he⟩ := route?_eq_some_iff.mp hroute
    exact hg.legal s hs n (he ▸ List.mem_cons_of_mem _ hn)
  have hfields := legal_grow hlegal
  rwa [hgrow] at hfields

omit hg in
theorem ordered_fields : d.fields.Ordered := by
  obtain ⟨rs, group, hgrow, _⟩ := exists_group h hd
  have hfields := ordered_grow (rs.map fun r => r.first :: r.rest)
  rwa [hgrow] at hfields

/-- A selection occurs in a document if its top field does. -/
theorem isSome_at?_of_top {s : Selection} (hs : s ∈ ss) (ho : s.operation? = some d.operation)
    {text : String} {texts : List String} (htop : (d.fields.at? [text]).isSome)
    (ht : (text :: texts) <+: (d.headsOf s).map Head.text) :
    (d.fields.at? (text :: texts)).isSome := by
  obtain ⟨rs, group, hgrow, hrs⟩ := exists_group h hd
  have hall : ∀ texts : List String, texts ≠ [] → _ :=
    fun _ hne => isSome_at?_grow (rs.map fun r => r.first :: r.rest) hne
  rw [hgrow] at hall
  have hlabel : ∀ r : Route, (∃ s ∈ ss, route? s = .ok (some r)) → ∀ texts,
      (text :: texts) <+: (heads d.declared (r.first :: r.rest)).1.map Head.text →
      ∃ head : Head, head.isLegal = true ∧ head.text = text ∧
        head.responseKey? = some r.first.label := by
    rintro r ⟨s, hs, hroute⟩ texts hpre
    obtain ⟨_, top, he⟩ := route?_eq_some_iff.mp hroute
    have hplace := hg.top s hs r.first (by rw [he]; rfl)
    have hlegal : ∀ head ∈ (heads d.declared (r.first :: r.rest)).1, head.isLegal = true :=
      isLegal_heads d.declared fun n hn => hg.legal s hs n (he ▸ List.mem_cons_of_mem _ hn)
    obtain ⟨head, below, hheads, hkey⟩ := exists_heads_cons hplace d.declared r.rest
    rw [hheads, List.map_cons, List.cons_prefix_cons] at hpre
    rw [hheads] at hlegal
    exact ⟨head, hlegal head List.mem_cons_self, hpre.1.symm, hkey⟩
  obtain ⟨way, hway, hpre⟩ := (hall [text] (List.cons_ne_nil _ _)).mp htop
  obtain ⟨r', hr', rfl⟩ := List.mem_map.mp hway
  obtain ⟨hthere', hoperation', hgroup'⟩ := (hrs r').mp hr'
  cases hway : s.ancestry.tail with
  | nil =>
      rw [headsOf, hway] at ht
      exact absurd (List.prefix_nil.mp ht) (List.cons_ne_nil _ _)
  | cons first rest =>
      have hancestry : ∃ top, s.ancestry = top :: first :: rest := by
        cases hall : s.ancestry with
        | nil =>
            rw [hall] at hway
            cases hway
        | cons top nodes =>
            rw [hall] at hway
            exact ⟨top, congrArg (top :: ·) hway⟩
      let r : Route := { operation := d.operation, first, rest }
      have hthere : ∃ s ∈ ss, route? s = .ok (some r) :=
        ⟨s, hs, route?_eq_some_iff.mpr ⟨ho, hancestry⟩⟩
      rw [headsOf, hway] at ht
      obtain ⟨head, hlegal, htext, hkey⟩ := hlabel r hthere texts ht
      obtain ⟨head', hlegal', htext', hkey'⟩ := hlabel r' hthere' [] hpre
      have hsame := Head.responseKey?_eq_of_text hlegal hlegal' (htext.trans htext'.symm)
      rw [hkey, hkey', Option.some.injEq] at hsame
      have hgroup : r.group = group := by
        rw [← hgroup', Route.group, Route.group, hoperation', hsame]
      refine (hall _ (List.cons_ne_nil _ _)).mpr ⟨first :: rest, List.mem_map.mpr ⟨r, ?_, rfl⟩, ht⟩
      exact (hrs r).mpr ⟨hthere, rfl, hgroup⟩

end

end LazyGraph.Document
