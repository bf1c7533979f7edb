import LazyGraph.Document.Builder
import LazyGraph.Proofs.Fields
import LazyGraph.Proofs.Recency
import LazyGraph.Proofs.Selection

/-!
Documents of plain selections: each of them asks for all ways of its selections, and so do those
that a builder remembers.
-/
namespace LazyGraph.Document

open Selection (Node)

/-! ### Trees of plain fields -/

/-- A field without alias and arguments. -/
def plain (name : String) : Head := .field none name []

@[simp] theorem text_plain (name : String) : (plain name).text = name := by
  simp [plain, Head.text]

namespace FieldTree

variable {t u : FieldTree} {way : List String}

/-- All heads are fields without alias and arguments. -/
inductive Plain : FieldTree → Prop
  | node {children : List (Head × FieldTree)} (heads : ∀ q ∈ children, ∃ name, q.1 = plain name)
    (parts : ∀ q ∈ children, Plain q.2) : Plain (.node children)

/-- The tree asks for what lies at the end of a way. -/
def Asks (t : FieldTree) : List String → Prop
  | [] => True
  | name :: rest => ∃ u, t.below? name = some u ∧ u.Asks rest

theorem below?_cons (q : Head × FieldTree) (children : List (Head × FieldTree)) (text : String) :
    (node (q :: children)).below? text =
      if q.1.text = text then some q.2 else (node children).below? text := by
  simp only [below?, FieldTree.children, List.find?_cons]
  by_cases h : q.1.text = text
  · rw [if_pos h, beq_iff_eq.mpr h]
    rfl
  · rw [if_neg h, beq_eq_false_iff_ne.mpr h]

theorem below?_put (head : Head) (t : FieldTree) (children : List (Head × FieldTree))
    (text : String) : (node (put head t children)).below? text =
      if head.text = text then some t else (node children).below? text := by
  induction children with
  | nil => exact below?_cons _ _ _
  | cons q children ih =>
      rw [put]
      split
      · rename_i he
        rw [below?_cons, below?_cons, he]
        by_cases h : q.1.text = text
        · rw [if_pos h, if_pos h]
        · rw [if_neg h, if_neg h, if_neg h]
      · rename_i he
        split
        · rw [below?_cons]
        · rw [below?_cons, below?_cons, ih]
          by_cases h : q.1.text = text
          · rw [if_pos h, if_neg fun e => he (e.trans h.symm), if_pos h]
          · rw [if_neg h, if_neg h]

theorem below?_insert (t : FieldTree) (head : Head) (rest : List Head) (text : String) :
    (t.insert (head :: rest)).below? text =
      if head.text = text then some (((t.below? head.text).getD empty).insert rest)
      else t.below? text := by
  cases t
  exact below?_put _ _ _ _

theorem forall_mem_put {head : Head} {t : FieldTree} {P : Head × FieldTree → Prop}
    (hnew : P (head, t)) (hold : ∀ h u, P (h, u) → P (h, t)) {children : List (Head × FieldTree)}
    (h : ∀ q ∈ children, P q) : ∀ q ∈ put head t children, P q := by
  induction children with
  | nil => exact List.forall_mem_singleton.mpr hnew
  | cons q children ih =>
      obtain ⟨hq, hrest⟩ := List.forall_mem_cons.mp h
      rw [put]
      split
      · exact List.forall_mem_cons.mpr ⟨hold _ _ hq, hrest⟩
      · split
        · exact List.forall_mem_cons.mpr ⟨hnew, h⟩
        · exact List.forall_mem_cons.mpr ⟨hq, ih hrest⟩

theorem asks_insert (t : FieldTree) (way : List String) : (t.insert (way.map plain)).Asks way := by
  induction way generalizing t with
  | nil => trivial
  | cons name rest ih =>
      refine ⟨_, ?_, ih ((t.below? (plain name).text).getD empty)⟩
      rw [List.map_cons, below?_insert, if_pos (text_plain name)]

theorem Asks.insert (h : t.Asks way) (other : List String) :
    (t.insert (other.map plain)).Asks way := by
  induction way generalizing t other with
  | nil => trivial
  | cons name rest ih =>
      obtain ⟨u, hu, hrest⟩ := h
      cases other with
      | nil => exact ⟨u, hu, hrest⟩
      | cons name' rest' =>
          rw [List.map_cons]
          by_cases he : (plain name').text = name
          · refine ⟨u.insert (rest'.map plain), ?_, ih hrest rest'⟩
            rw [below?_insert, if_pos he, he, hu]
            rfl
          · refine ⟨u, ?_, hrest⟩
            rw [below?_insert, if_neg he, hu]

/-- All heads in the tree have a property. -/
inductive Throughout (P : Head → Prop) : FieldTree → Prop
  | node {children : List (Head × FieldTree)} (heads : ∀ q ∈ children, P q.1)
    (parts : ∀ q ∈ children, Throughout P q.2) : Throughout P (.node children)

section Heads

variable {P : Head → Prop}

theorem Throughout.empty : Throughout P empty :=
  .node (fun _ h => absurd h List.not_mem_nil) fun _ h => absurd h List.not_mem_nil

theorem Throughout.child (h : t.Throughout P) {q : Head × FieldTree} (hq : q ∈ t.children) :
    P q.1 ∧ q.2.Throughout P := by
  cases h with
  | node heads parts => exact ⟨heads q hq, parts q hq⟩

theorem Throughout.below? (h : t.Throughout P) {text : String} (hu : t.below? text = some u) :
    u.Throughout P := by
  obtain ⟨q, hq, rfl⟩ := Option.map_eq_some_iff.mp hu
  exact (h.child (List.mem_of_find?_eq_some hq)).2

theorem Throughout.below_getD (h : t.Throughout P) (text : String) :
    ((t.below? text).getD FieldTree.empty).Throughout P := by
  cases hu : t.below? text with
  | none => exact .empty
  | some u => exact h.below? hu

theorem Throughout.insert (h : t.Throughout P) {way : List Head} (hway : ∀ x ∈ way, P x) :
    (t.insert way).Throughout P := by
  induction way generalizing t with
  | nil => exact h
  | cons head rest ih =>
      obtain ⟨hhead, hrest⟩ := List.forall_mem_cons.mp hway
      have hbelow := ih (h.below_getD head.text) hrest
      cases h with
      | node heads parts =>
          exact .node (forall_mem_put hhead (fun _ _ h => h) heads)
            (forall_mem_put hbelow (fun _ _ _ => hbelow) parts)

end Heads

theorem plain_iff_throughout : t.Plain ↔ t.Throughout fun head => ∃ name, head = plain name := by
  constructor
  · intro h
    induction h with
    | node heads _ ih => exact .node heads ih
  · intro h
    induction h with
    | node heads _ ih => exact .node heads ih

theorem Plain.empty : Plain empty := plain_iff_throughout.mpr .empty

theorem Plain.below? (h : t.Plain) {text : String} (hu : t.below? text = some u) : u.Plain :=
  plain_iff_throughout.mpr ((plain_iff_throughout.mp h).below? hu)

theorem Plain.insert (h : t.Plain) (way : List String) : (t.insert (way.map plain)).Plain := by
  refine plain_iff_throughout.mpr ((plain_iff_throughout.mp h).insert ?_)
  simp

end FieldTree

/-! ### Compilation -/

/-- A query of plain fields that asks for what lies at the end of a way. -/
structure Asks (d : Document) (way : List String) : Prop where
  operation : d.operation = .query
  plain : d.fields.Plain
  fields : d.fields.Asks way

theorem heads_eq {nodes : List Node} {way : List String} (h : List.Forall₂ Node.Names nodes way)
    (vs : Variables) : heads vs nodes = (way.map plain, vs) := by
  induction h with
  | nil => rfl
  | @cons n name nodes way hn _ ih =>
      have hmarker : n.isMarker = false := by
        rw [Node.isMarker, hn.key]
        exact decide_eq_false fun e => hn.legal.field (Selection.Key.field.inj e)
      rw [heads, hn.key]
      simp only [hmarker, hn.isBranch, hn.arguments, hn.aliasName, Variables.declareAll, ih]
      rfl

/-- The tree of plain ways asks for each of them. -/
theorem grow_asks {ways : List (List Node)}
    (h : ∀ nodes ∈ ways, ∃ way, List.Forall₂ Node.Names nodes way) :
    (grow ways).1.Plain ∧ ∀ nodes ∈ ways, ∀ way, List.Forall₂ Node.Names nodes way →
      (grow ways).1.Asks way := by
  have hfold : ∀ acc : FieldTree × Variables, acc.1.Plain →
      let r := ways.foldl
        (fun acc way => (acc.1.insert (heads acc.2 way).1, (heads acc.2 way).2)) acc
      r.1.Plain ∧ (∀ nodes ∈ ways, ∀ way, List.Forall₂ Node.Names nodes way → r.1.Asks way) ∧
        ∀ way, acc.1.Asks way → r.1.Asks way := by
    induction ways with
    | nil => exact fun acc hacc => ⟨hacc, fun _ h => absurd h List.not_mem_nil, fun _ => id⟩
    | cons nodes ways ih =>
        intro acc hacc
        obtain ⟨⟨way, hway⟩, hrest⟩ := List.forall_mem_cons.mp h
        have hheads := heads_eq hway acc.2
        obtain ⟨hplain, hasks, hkept⟩ := ih hrest
          (acc.1.insert (heads acc.2 nodes).1, (heads acc.2 nodes).2) (by
            rw [hheads]
            exact hacc.insert way)
        refine ⟨hplain, List.forall_mem_cons.mpr ⟨fun other hother => ?_, hasks⟩,
          fun other ho => ?_⟩
        · refine hkept other ?_
          rw [heads_eq hother]
          exact acc.1.asks_insert other
        · refine hkept other ?_
          rw [hheads]
          exact ho.insert way
  obtain ⟨hplain, hasks, _⟩ := hfold (.empty, []) .empty
  exact ⟨hplain, hasks⟩

/-- The route of a way of the query. -/
structure Route.Names (r : Route) (way : List String) : Prop where
  operation : r.operation = .query
  nodes : List.Forall₂ Node.Names (r.first :: r.rest) way

theorem route?_eq {s : Selection} {way : List String} (h : s.Leads way) :
    ∃ r, route? s = .ok r ∧ ((way = [] ∧ r = none) ∨ ∃ route, r = some route ∧ route.Names way) := by
  have hop := h.operation?
  obtain ⟨top, nodes, he, _, _, hnodes⟩ := h
  rw [route?, hop]
  simp only [he]
  cases hnodes with
  | nil => exact ⟨none, rfl, .inl ⟨rfl, rfl⟩⟩
  | @cons n name nodes names hn hrest =>
      exact ⟨_, rfl, .inr ⟨{ operation := .query, first := n, rest := nodes }, rfl, rfl,
        .cons hn hrest⟩⟩

/-- All routes are those of the selections, and each way that is no root has one. -/
theorem mapM_route? {ss : List Selection} (h : ∀ s ∈ ss, ∃ way, s.Leads way) :
    ∃ rs, ss.mapM route? = .ok rs ∧ (∀ route, some route ∈ rs → ∃ way, route.Names way) ∧
      ∀ s ∈ ss, ∀ way, s.Leads way → way ≠ [] → ∃ route, some route ∈ rs ∧ route.Names way := by
  induction ss with
  | nil =>
      exact ⟨[], rfl, fun _ h => absurd h List.not_mem_nil, fun _ h => absurd h List.not_mem_nil⟩
  | cons s ss ih =>
      obtain ⟨⟨way, hway⟩, hrest⟩ := List.forall_mem_cons.mp h
      obtain ⟨r, hr, hcases⟩ := route?_eq hway
      obtain ⟨rs, hrs, hnamed, hfound⟩ := ih hrest
      refine ⟨r :: rs, ?_, fun route hm => ?_, List.forall_mem_cons.mpr ⟨?_, ?_⟩⟩
      · rw [List.mapM_cons, hr, hrs]
        rfl
      · rcases List.mem_cons.mp hm with he | hm
        · obtain ⟨_, hn⟩ | ⟨route', hs, hnames⟩ := hcases
          · cases he.trans hn
          · cases he.trans hs
            exact ⟨way, hnames⟩
        · exact hnamed route hm
      · intro other hother hne
        obtain rfl := hway.eq hother
        obtain ⟨he, _⟩ | ⟨route, rfl, hnames⟩ := hcases
        · exact absurd he hne
        · exact ⟨route, List.mem_cons_self, hnames⟩
      · intro x hx other hother hne
        obtain ⟨route, hm, hnames⟩ := hfound x hx other hother hne
        exact ⟨route, List.mem_cons_of_mem r hm, hnames⟩

section

variable {routes : List Route} (hn : ∀ r ∈ routes, ∃ way, r.Names way) {route : Route}
  (hroute : route ∈ routes)

include hn hroute

/-- Routes of the query are one group. -/
theorem mem_groups_query : routes ∈ groups .query routes := by
  have hours : routes.filter (·.operation == .query) = routes := by
    refine List.filter_eq_self.mpr fun r hr => ?_
    obtain ⟨_, hr⟩ := hn r hr
    rw [hr.operation]
    rfl
  have hone : ∀ r ∈ routes, Route.group r = "" := by
    intro r hr
    obtain ⟨_, hr⟩ := hn r hr
    rw [Route.group, hr.operation]
  have hall : routes.filter (Route.group · == "") = routes :=
    List.filter_eq_self.mpr fun r hr => beq_iff_eq.mpr (hone r hr)
  have hkey : "" ∈ Fields.keys (Fields.overlay [] (routes.map fun r => (r.group, ()))) := by
    refine Fields.mem_keys_overlay.mpr (.inl ?_)
    rw [Fields.keys, List.map_map]
    exact List.mem_map.mpr ⟨route, hroute, hone route hroute⟩
  rw [groups, hours]
  exact List.mem_map.mpr ⟨"", hkey, hall⟩

/-- A group with a route has a document, which asks for all of its routes. -/
theorem ofGroup?_asks (operationName : Option String) :
    ∃ document, ofGroup? .query operationName routes = some document ∧
      ∀ r ∈ routes, ∀ way, r.Names way → document.Asks way := by
  have hways : ∀ nodes ∈ routes.map fun r => r.first :: r.rest,
      ∃ way, List.Forall₂ Node.Names nodes way := by
    intro nodes hm
    obtain ⟨r, hr, rfl⟩ := List.mem_map.mp hm
    obtain ⟨way, hr⟩ := hn r hr
    exact ⟨way, hr.nodes⟩
  obtain ⟨hplain, hasks⟩ := grow_asks hways
  have hasked : ∀ r ∈ routes, ∀ way, r.Names way →
      (grow (routes.map fun r => r.first :: r.rest)).1.Asks way :=
    fun r hr way hnames => hasks _ (List.mem_map_of_mem hr) way hnames.nodes
  have hfull : (grow (routes.map fun r => r.first :: r.rest)).1.isEmpty = false := by
    obtain ⟨way, hnames⟩ := hn route hroute
    have hway := hasked route hroute way hnames
    cases hnames.nodes with
    | cons =>
        obtain ⟨u, hu, _⟩ := hway
        obtain ⟨q, hq, _⟩ := Option.map_eq_some_iff.mp hu
        exact List.isEmpty_eq_false_iff_exists_mem.mpr ⟨q, List.mem_of_find?_eq_some hq⟩
  let document : Document :=
    { operation := .query
      operationName
      fields := (grow (routes.map fun r => r.first :: r.rest)).1
      declared := (grow (routes.map fun r => r.first :: r.rest)).2 }
  have hdocument : ofGroup? .query operationName routes = some document := by
    rw [ofGroup?]
    simp only [hfull, Bool.false_eq_true, if_false]
    rfl
  exact ⟨document, hdocument, fun r hr way hnames => ⟨rfl, hplain, hasked r hr way hnames⟩⟩

end

/-- Selections of the query compile, and a document asks for each of their ways. -/
theorem ofArranged_answers {ss : List Selection} (h : ∀ s ∈ ss, ∃ way, s.Leads way)
    (operationName : Option String) : ∃ documents, ofArranged ss operationName = .ok documents ∧
      ∀ s ∈ ss, ∀ way, s.Leads way → way ≠ [] → ∃ d ∈ documents, d.Asks way := by
  obtain ⟨rs, hrs, hnamed, hfound⟩ := mapM_route? h
  let routes := rs.filterMap fun r => r
  have hmem : ∀ route, route ∈ routes ↔ some route ∈ rs := fun route => by
    simp [routes]
  have hnamed : ∀ r ∈ routes, ∃ way, r.Names way := fun r hr => hnamed r ((hmem r).mp hr)
  refine ⟨Operation.all.flatMap fun operation =>
    (groups operation routes).filterMap (ofGroup? operation operationName), ?_, ?_⟩
  · rw [ofArranged, hrs]
    rfl
  intro s hs way hway hne
  obtain ⟨route, hroute, hnames⟩ := hfound s hs way hway hne
  have hroute : route ∈ routes := (hmem route).mpr hroute
  obtain ⟨document, hdocument, hasks⟩ := ofGroup?_asks hnamed hroute operationName
  refine ⟨document, List.mem_flatMap.mpr ⟨.query, List.mem_cons_self, ?_⟩,
    hasks route hroute way hnames⟩
  exact List.mem_filterMap.mpr ⟨routes, mem_groups_query hnamed hroute, hdocument⟩

/-! ### Arrangement -/

/-- Of a run of alike items, one stays. -/
theorem exists_mem_eraseRepsBy {α β : Type} [BEq β] [LawfulBEq β] (f : α → β) {l : List α} {x : α}
    (h : x ∈ l) : ∃ y ∈ l.eraseRepsBy fun s t => f s == f t, f y = f x := by
  have hloop : ∀ (as : List α) (a : α) (acc : List α),
      (∀ x ∈ acc, x ∈ List.eraseRepsBy.loop (fun s t => f s == f t) a as acc) ∧
      ∀ x ∈ a :: as, ∃ y ∈ List.eraseRepsBy.loop (fun s t => f s == f t) a as acc, f y = f x := by
    intro as
    induction as with
    | nil =>
        intro a acc
        have hloop : List.eraseRepsBy.loop (fun s t => f s == f t) a [] acc =
            (a :: acc).reverse := rfl
        rw [hloop]
        refine ⟨fun x hx => List.mem_reverse.mpr (List.mem_cons_of_mem a hx), ?_⟩
        exact List.forall_mem_singleton.mpr ⟨a, List.mem_reverse.mpr List.mem_cons_self, rfl⟩
    | cons b as ih =>
        intro a acc
        rw [List.eraseRepsBy.loop]
        split
        · rename_i hab
          obtain ⟨hacc, hrest⟩ := ih a acc
          obtain ⟨hfirst, hrest⟩ := List.forall_mem_cons.mp hrest
          refine ⟨hacc, List.forall_mem_cons.mpr ⟨hfirst, List.forall_mem_cons.mpr ⟨?_, hrest⟩⟩⟩
          rw [← eq_of_beq hab]
          exact hfirst
        · obtain ⟨hacc, hrest⟩ := ih b (a :: acc)
          refine ⟨fun x hx => hacc x (List.mem_cons_of_mem a hx), List.forall_mem_cons.mpr ⟨?_, hrest⟩⟩
          exact ⟨a, hacc a List.mem_cons_self, rfl⟩
  cases l with
  | nil => exact absurd h List.not_mem_nil
  | cons a as => exact (hloop as a []).2 x h

theorem mem_of_mem_eraseRepsBy {α : Type} (r : α → α → Bool) {l : List α} {x : α}
    (h : x ∈ l.eraseRepsBy r) : x ∈ l := by
  have hloop : ∀ (as : List α) (a : α) (acc : List α),
      x ∈ List.eraseRepsBy.loop r a as acc → x ∈ acc ∨ x ∈ a :: as := by
    intro as
    induction as with
    | nil =>
        intro a acc hx
        rcases List.mem_cons.mp (List.mem_reverse.mp hx) with rfl | hx
        · exact .inr List.mem_cons_self
        · exact .inl hx
    | cons b as ih =>
        intro a acc hx
        rw [List.eraseRepsBy.loop] at hx
        split at hx
        · rcases ih a acc hx with hx | hx
          · exact .inl hx
          · refine .inr ?_
            rcases List.mem_cons.mp hx with rfl | hx
            · exact List.mem_cons_self
            · exact List.mem_cons_of_mem a (List.mem_cons_of_mem b hx)
        · rcases ih b (a :: acc) hx with hx | hx
          · rcases List.mem_cons.mp hx with rfl | hx
            · exact .inr List.mem_cons_self
            · exact .inl hx
          · exact .inr (List.mem_cons_of_mem a hx)
  cases l with
  | nil => exact h
  | cons a as => exact (hloop as a [] h).resolve_left List.not_mem_nil

/-- Of selections with one signature, one stays. -/
theorem exists_mem_arrange {ss : List Selection} {s : Selection} (h : s ∈ ss) :
    ∃ t ∈ arrange ss, t.signature = s.signature :=
  exists_mem_eraseRepsBy Selection.signature (List.mem_mergeSort.mpr h)

/-- Selections in the order of their signatures stay as they are. -/
theorem arrange_of_sorted {ss : List Selection} (h : ss.Pairwise (·.signature < ·.signature)) :
    arrange ss = ss := by
  have hloop : ∀ (as : List Selection) (a : Selection) (acc : List Selection),
      (a :: as).Pairwise (·.signature < ·.signature) →
      List.eraseRepsBy.loop (fun s t => s.signature == t.signature) a as acc =
        acc.reverse ++ a :: as := by
    intro as
    induction as with
    | nil => exact fun a acc _ => List.reverse_cons
    | cons b as ih =>
        intro a acc hs
        obtain ⟨ha, hrest⟩ := List.pairwise_cons.mp hs
        have hne : (a.signature == b.signature) = false :=
          beq_eq_false_iff_ne.mpr (String.ne_of_lt (ha b List.mem_cons_self))
        rw [List.eraseRepsBy.loop, hne]
        simp only
        rw [ih b (a :: acc) hrest, List.reverse_cons, List.append_assoc, List.singleton_append]
  have hsorted : ss.mergeSort (fun s t => decide (s.signature ≤ t.signature)) = ss :=
    List.mergeSort_of_pairwise (h.imp fun hlt => decide_eq_true (Std.le_of_lt hlt))
  rw [arrange, hsorted]
  cases ss with
  | nil => rfl
  | cons a as => exact hloop as a [] h

theorem mem_of_mem_arrange {ss : List Selection} {s : Selection} (h : s ∈ arrange ss) : s ∈ ss :=
  List.mem_mergeSort.mp (mem_of_mem_eraseRepsBy _ h)

/-- Selections that their signatures tell are all there when they are put in order. -/
theorem mem_arrange_of_told {ss : List Selection} {s : Selection}
    (told : ∀ t ∈ ss, t.signature = s.signature → t = s) : s ∈ arrange ss ↔ s ∈ ss := by
  refine ⟨mem_of_mem_arrange, fun hs => ?_⟩
  obtain ⟨t, ht, hsignature⟩ := exists_mem_arrange hs
  exact told t (mem_of_mem_arrange ht) hsignature ▸ ht

/-! ### Builders -/

namespace Builder

/-- The builder once it has compiled selections, in their order. -/
def afterBuild (b : Builder) (ss : List Selection) (operationName : Option String)
    (documents : List Document) : Builder :=
  { b with
    memo := (Recency.put b.memo (operationName.getD "", ss.map (·.id)) documents).take b.capacity }

theorem build_of_sorted (b : Builder) {ss : List Selection} {operationName : Option String}
    (hs : ss.Pairwise (·.signature < ·.signature))
    (hm : Recency.peek? b.memo (operationName.getD "", ss.map (·.id)) = none)
    {documents : List Document} (hd : ofArranged ss operationName = .ok documents) :
    b.build ss operationName = (.ok documents, b.afterBuild ss operationName documents) := by
  simp only [build, arrange_of_sorted hs, hm, hd]
  rfl

variable {b : Builder} {f : Selection.Forest} {root : Selection}

/-- What is remembered of known selections asks for their ways. -/
def Remembers (b : Builder) (f : Selection.Forest) (root : Selection) : Prop :=
  ∀ q ∈ b.memo, ∀ id ∈ q.1.2, ∃ x ∈ f.known root, x.id = id ∧
    ∀ way, x.Leads way → way ≠ [] → ∃ d ∈ q.2, d.Asks way

theorem Remembers.mono {g : Selection.Forest} (h : b.Remembers f root)
    (hk : f.known root ⊆ g.known root) : b.Remembers g root := by
  intro q hq id hid
  obtain ⟨x, hx, rest⟩ := h q hq id hid
  exact ⟨x, hk hx, rest⟩

/-- Known selections are compiled, and asked for. -/
theorem Remembers.build (h : b.Remembers f root) (hf : f.Plain root) {ss : List Selection}
    (hss : ss ⊆ f.known root) (operationName : Option String) :
    (b.build ss operationName).2.Remembers f root ∧
      ∃ documents, (b.build ss operationName).1 = .ok documents ∧
        ∀ s ∈ ss, ∀ way, s.Leads way → way ≠ [] → ∃ d ∈ documents, d.Asks way := by
  have harranged : ∀ t ∈ arrange ss, t ∈ f.known root := fun t ht => hss (mem_of_mem_arrange ht)
  have hrepresented : ∀ {documents : List Document},
      (∀ t ∈ arrange ss, ∀ way, t.Leads way → way ≠ [] → ∃ d ∈ documents, d.Asks way) →
      ∀ s ∈ ss, ∀ way, s.Leads way → way ≠ [] → ∃ d ∈ documents, d.Asks way := by
    intro documents hall s hs way hway hne
    obtain ⟨t, ht, hsignature⟩ := exists_mem_arrange hs
    obtain ⟨other, hother⟩ := hf.leads (harranged t ht)
    obtain rfl := hother.eq_of_signature hway hsignature
    exact hall t ht other hother hne
  rw [Builder.build]
  split
  · rename_i documents hmemo
    refine ⟨fun q hq => h q (Recency.mem_of_mem_touch hq), documents, rfl, hrepresented ?_⟩
    intro t ht way hway hne
    obtain ⟨x, hx, hid, hasks⟩ := h _ (Recency.mem_of_peek? hmemo) t.id (List.mem_map_of_mem ht)
    obtain rfl := hf.eq_of_id hx (harranged t ht) hid
    exact hasks way hway hne
  · obtain ⟨documents, hdocuments, hasks⟩ := ofArranged_answers
      (fun t ht => hf.leads (harranged t ht)) operationName
    rw [hdocuments]
    refine ⟨fun q hq id hid => ?_, documents, rfl, hrepresented hasks⟩
    rcases Recency.mem_put.mp (List.mem_of_mem_take hq) with rfl | ⟨hq, _⟩
    · obtain ⟨t, ht, rfl⟩ := List.mem_map.mp hid
      exact ⟨t, harranged t ht, rfl, hasks t ht⟩
    · exact h q hq id hid

end Builder
end LazyGraph.Document
