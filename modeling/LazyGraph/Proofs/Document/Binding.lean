import LazyGraph.Proofs.Document.Memory
import LazyGraph.Proofs.Document.Mention

/-!
The variables of a document are those that its header declares, those that its fields use and those
that get a value. Every argument of a selected field is written with a variable of its type that has
an equal value, and no two variables could stand for each other.
-/
namespace LazyGraph

namespace Selection

theorem isNameChar_of_mem_repr (n : Nat) : ∀ c ∈ n.repr.toList, isNameChar c = true := by
  intro c hc
  rw [Nat.toList_repr] at hc
  rw [isNameChar, Nat.isDigit_of_mem_toDigits (by decide) (by decide) hc, Bool.or_true]

end Selection

namespace Document

open Selection (Argument Node isGraphName isNameChar)

theorem exists_of_forall₂ {α β : Type} {R : α → β → Prop} {xs : List α} {ys : List β}
    (h : List.Forall₂ R xs ys) {y : β} (hy : y ∈ ys) : ∃ x ∈ xs, R x y := by
  induction h with
  | nil => exact absurd hy List.not_mem_nil
  | @cons x z xs ys hx _ ih =>
      rcases List.mem_cons.mp hy with rfl | hy
      · exact ⟨x, List.mem_cons_self, hx⟩
      · obtain ⟨x, hmem, hr⟩ := ih hy
        exact ⟨x, List.mem_cons_of_mem _ hmem, hr⟩

namespace Variables

variable {vs ws : Variables} {a : Argument} {label argument name : String}

/-! ### Names and values -/

/-- Variables with names of the query language. Two that have one type and equal values are one. -/
structure Proper (vs : Variables) : Prop where
  ascending : Fields.Ascending vs
  named : ∀ v ∈ vs, isGraphName v.1 = true
  distinct : ∀ v ∈ vs, ∀ w ∈ vs, v.2.type = w.2.type → v.2.value.equal w.2.value = true → v = w

theorem Proper.empty : Proper [] :=
  ⟨.nil, fun _ h => absurd h List.not_mem_nil, fun _ h => absurd h List.not_mem_nil⟩

theorem isGraphName_freeName {base : String} (h : isGraphName base = true) (vs : Variables) :
    isGraphName (vs.freeName base) = true := by
  have hcandidate : ∀ n, isGraphName (candidate base n) = true := by
    intro n
    cases n with
    | zero => exact h
    | succ n =>
        have htext : (candidate base (n + 1)).toList = base.toList ++ '_' :: (n + 2).repr.toList := by
          simp only [candidate, toString, String.toList_append, List.append_assoc]
          rfl
        exact Selection.isGraphName_of_toList h htext (Selection.isNameChar_of_mem_repr _)
  rw [freeName]
  generalize hfound : List.find? _ _ = found
  cases found with
  | none => exact h
  | some name =>
      obtain ⟨n, _, rfl⟩ := List.mem_map.mp (List.mem_of_find?_eq_some hfound)
      exact hcandidate n

theorem exists_of_holding? (h : vs.holding? a = some name) :
    ∃ b, (name, b) ∈ vs ∧ b.type = a.type ∧ b.value.equal a.value = true := by
  obtain ⟨v, hv, rfl⟩ := Option.map_eq_some_iff.mp h
  have hfound := List.find?_some hv
  rw [Bool.and_eq_true, beq_iff_eq] at hfound
  exact ⟨v.2, List.mem_of_find?_eq_some hv, hfound⟩

theorem Proper.declare (h : vs.Proper) (ha : isGraphName argument = true) (label : String)
    (a : Argument) : (vs.declare label argument a).2.Proper := by
  rw [Variables.declare]
  split
  · exact h
  · rename_i hnone
    have hbase : isGraphName s!"{argument}_{Digest.short [label, argument] digestLength}" = true := by
      have htext : s!"{argument}_{Digest.short [label, argument] digestLength}".toList =
          argument.toList ++ '_' :: (Digest.short [label, argument] digestLength).toList := by
        simp only [toString, String.toList_append, List.append_assoc]
        rfl
      refine Selection.isGraphName_of_toList ha htext fun c hc => ?_
      exact Selection.isNameChar_of_mem_hexDigits c (Selection.mem_hexDigits_of_mem_short _ _ c hc)
    have hother : ∀ v ∈ vs, v.2.type = a.type → ¬ v.2.value.equal a.value = true := by
      intro v hv htype hvalue
      have hnot := List.find?_eq_none.mp (Option.map_eq_none_iff.mp hnone) v hv
      exact hnot ((Bool.and_eq_true _ _).mpr ⟨beq_iff_eq.mpr htype, hvalue⟩)
    refine ⟨h.ascending.insert _ _, ?_, ?_⟩
    · intro v hv
      rcases Fields.mem_of_mem_insert hv with rfl | hv
      · exact isGraphName_freeName hbase vs
      · exact h.named v hv
    · intro v hv w hw htype hvalue
      rcases Fields.mem_of_mem_insert hv with rfl | hv
      · rcases Fields.mem_of_mem_insert hw with rfl | hw
        · rfl
        · rw [Json.equal_iff_form] at hvalue
          have hsame := (Json.equal_iff_form w.2.value a.value).mpr hvalue.symm
          exact absurd hsame (hother w hw htype.symm)
      · rcases Fields.mem_of_mem_insert hw with rfl | hw
        · exact absurd hvalue (hother v hv htype)
        · exact h.distinct v hv w hw htype hvalue

theorem mem_keys_declare : name ∈ Fields.keys (vs.declare label argument a).2 ↔
    name ∈ Fields.keys vs ∨ name = (vs.declare label argument a).1 := by
  rw [Variables.declare]
  split
  · rename_i held hheld
    obtain ⟨b, hb, _⟩ := exists_of_holding? hheld
    refine ⟨.inl, fun h => h.elim id ?_⟩
    rintro rfl
    exact Fields.mem_keys_of_mem hb
  · rw [Fields.mem_keys_insert, or_comm]

theorem Proper.declareAll (h : vs.Proper) (label : String) {arguments : List (String × Argument)}
    (ha : ∀ a ∈ arguments, isGraphName a.1 = true) : (vs.declareAll label arguments).2.Proper := by
  induction arguments generalizing vs with
  | nil => exact h
  | cons a arguments ih =>
      obtain ⟨hfirst, hrest⟩ := List.forall_mem_cons.mp ha
      exact ih (h.declare hfirst label a.2) hrest

theorem mem_keys_declareAll {arguments : List (String × Argument)} :
    name ∈ Fields.keys (vs.declareAll label arguments).2 ↔
      name ∈ Fields.keys vs ∨ name ∈ (vs.declareAll label arguments).1.map (·.2) := by
  induction arguments generalizing vs with
  | nil => simp [declareAll]
  | cons a arguments ih =>
      simp only [declareAll, ih, mem_keys_declare, List.map_cons, List.mem_cons, or_assoc]

/-- The variable is declared with the type of the argument, and its value equals the argument's. -/
def Binds (vs : Variables) (argument : String × Argument) (use : String × String) : Prop :=
  use.1 = argument.1 ∧ ∃ a, Fields.get? vs use.2 = some a ∧ a.type = argument.2.type ∧
    a.value.equal argument.2.value = true

theorem Proper.named_uses (h : vs.Proper) {arguments : List (String × Argument)}
    {uses : List (String × String)} (binds : List.Forall₂ vs.Binds arguments uses)
    (ha : ∀ a ∈ arguments, isGraphName a.1 = true) :
    ∀ use ∈ uses, isGraphName use.1 = true ∧ isGraphName use.2 = true := by
  intro use huse
  obtain ⟨a, hmem, hargument, b, hb, _⟩ := exists_of_forall₂ binds huse
  rw [hargument]
  exact ⟨ha a hmem, h.named _ (Fields.mem_of_get? hb)⟩

theorem binds_declareAll {arguments : List (String × Argument)}
    (h : Kept (vs.declareAll label arguments).2 ws) (hw : Fields.Ascending ws) :
    List.Forall₂ ws.Binds arguments (vs.declareAll label arguments).1 := by
  induction arguments generalizing vs with
  | nil => exact .nil
  | cons a arguments ih =>
      have hheld := h _ _ (kept_declareAll _ label arguments _ _
        (holding?_declare vs label a.1 a.2))
      obtain ⟨b, hb, htype, hvalue⟩ := exists_of_holding? hheld
      exact .cons ⟨rfl, b, hw.get?_of_mem hb, htype, hvalue⟩ (ih h)

end Variables

open Variables (Kept Binds)

/-! ### Heads -/

/-- A node is written with a head: its own alias and name, and a variable for each argument. -/
inductive Writes (vs : Variables) (n : Node) : Head → Prop
  | field {name : String} {uses : List (String × String)} (key : n.key = .field name)
    (plain : n.isBranch = false) (arguments : List.Forall₂ vs.Binds n.arguments uses) :
    Writes vs n (.field n.aliasName name uses)
  | branch {type : String} (key : n.key = .field type) (branch : n.isBranch = true) :
    Writes vs n (.branch type)

variable {vs ws : Variables} {way : List Node} {ways : List (List Node)} {name : String}

theorem writes_heads (h : Kept (heads vs way).2 ws) (hw : Fields.Ascending ws) :
    List.Forall₂ (Writes ws) (way.filter (·.isWritten)) (heads vs way).1 := by
  induction way generalizing vs with
  | nil => exact .nil
  | cons n way ih =>
      rw [List.filter_cons, Node.isWritten]
      cases hkey : n.key with
      | index position =>
          simp only [heads, hkey] at h ⊢
          exact ih h
      | field name =>
          simp only [heads, hkey, Selection.Key.isIndex] at h ⊢
          cases hmarker : n.isMarker with
          | true =>
              simp only [hmarker, if_true] at h ⊢
              exact ih h
          | false =>
              cases hbranch : n.isBranch with
              | true =>
                  simp only [hmarker, hbranch, if_true, Bool.false_eq_true, if_false] at h ⊢
                  exact .cons (.branch hkey hbranch) (ih h)
              | false =>
                  simp only [hmarker, hbranch, Bool.false_eq_true, if_false] at h ⊢
                  refine .cons (.field hkey hbranch ?_) (ih h)
                  exact Variables.binds_declareAll ((kept_heads _ way).trans h) hw

/-- The variables after a way was written are those before it and those that its heads use. -/
theorem mem_keys_heads : name ∈ Fields.keys (heads vs way).2 ↔
    name ∈ Fields.keys vs ∨ ∃ head ∈ (heads vs way).1, name ∈ head.uses := by
  induction way generalizing vs with
  | nil => simp [heads]
  | cons n way ih =>
      rw [heads]
      split
      · exact ih
      · split
        · exact ih
        · split
          · simp [ih, Head.uses]
          · simp only [ih, Variables.mem_keys_declareAll, List.mem_cons, exists_eq_or_imp, Head.uses,
              or_assoc]

theorem proper_heads (h : vs.Proper)
    (hway : ∀ n ∈ way, ∀ a ∈ n.arguments, isGraphName a.1 = true) : (heads vs way).2.Proper := by
  induction way generalizing vs with
  | nil => exact h
  | cons n way ih =>
      obtain ⟨hn, hrest⟩ := List.forall_mem_cons.mp hway
      rw [heads]
      split
      · exact ih h hrest
      · split
        · exact ih h hrest
        · split
          · exact ih h hrest
          · exact ih (h.declareAll _ hn) hrest

theorem Writes.named {n : Node} {head : Head} (h : Writes vs n head) (hv : vs.Proper)
    (legal : n.isLegal = true) (written : n.isWritten = true)
    (arguments : ∀ a ∈ n.arguments, isGraphName a.1 = true) : head.Named := by
  have hmarker : n.isMarker = false := by
    rw [Node.isWritten, Bool.and_eq_true, Bool.not_eq_true'] at written
    simpa using written.2
  cases h with
  | @field name uses key plain binds =>
      refine ⟨?_, Node.isGraphName_key legal key hmarker, hv.named_uses binds arguments⟩
      cases halias : n.aliasName with
      | none => rfl
      | some a => exact Node.isGraphName_aliasName legal halias
  | branch key => exact Node.isGraphName_key legal key hmarker

/-- Legal nodes with names for their arguments. -/
def NamedWay (way : List Node) : Prop :=
  ∀ n ∈ way, n.isLegal = true ∧ ∀ a ∈ n.arguments, isGraphName a.1 = true

theorem named_heads (hv : vs.Proper) (hway : NamedWay way) :
    ∀ head ∈ (heads vs way).1, head.Named := by
  intro head hhead
  have hproper := proper_heads hv fun n hn => (hway n hn).2
  have hwrites := writes_heads (.refl (heads vs way).2) hproper.ascending
  obtain ⟨n, hn, hwritten⟩ := exists_of_forall₂ hwrites hhead
  obtain ⟨hn, hplace⟩ := List.mem_filter.mp hn
  obtain ⟨hlegal, harguments⟩ := hway n hn
  exact hwritten.named hproper hlegal hplace harguments

/-! ### Trees of ways -/

theorem proper_grow (h : ∀ way ∈ ways, NamedWay way) : (grow ways).2.Proper := by
  refine List.foldlRecOn (motive := fun acc : FieldTree × Variables => acc.2.Proper) ways _ .empty ?_
  intro acc hacc way hway
  exact proper_heads hacc fun n hn => (h way hway n hn).2

theorem named_grow (h : ∀ way ∈ ways, NamedWay way) : (grow ways).1.Throughout Head.Named := by
  have hgrown : (grow ways).1.Throughout Head.Named ∧ (grow ways).2.Proper := by
    refine List.foldlRecOn (motive := fun acc : FieldTree × Variables =>
      acc.1.Throughout Head.Named ∧ acc.2.Proper) ways _ ⟨.empty, .empty⟩ ?_
    intro acc hacc way hway
    exact ⟨hacc.1.insert (named_heads hacc.2 (h way hway)),
      proper_heads hacc.2 fun n hn => (h way hway n hn).2⟩
  exact hgrown.1

/-- A way of a tree is written with the variables that are there in the end, and they are those that
the ways use. Their table only grows, so a way that is written again is written as before. -/
theorem variables_grow (ways : List (List Node)) :
    (∀ way ∈ ways, (heads (grow ways).2 way).2 = (grow ways).2) ∧
    ∀ name, name ∈ Fields.keys (grow ways).2 ↔
      ∃ way ∈ ways, ∃ head ∈ (heads (grow ways).2 way).1, name ∈ head.uses := by
  have hfold : ∀ acc : FieldTree × Variables,
      let r := ways.foldl
        (fun acc way => (acc.1.insert (heads acc.2 way).1, (heads acc.2 way).2)) acc
      Kept acc.2 r.2 ∧ (∀ way ∈ ways, (heads r.2 way).2 = r.2) ∧
      ∀ name, name ∈ Fields.keys r.2 ↔ name ∈ Fields.keys acc.2 ∨
        ∃ way ∈ ways, ∃ head ∈ (heads r.2 way).1, name ∈ head.uses := by
    induction ways with
    | nil => exact fun acc => ⟨.refl _, fun _ h => absurd h List.not_mem_nil, by simp⟩
    | cons way ways ih =>
        intro acc
        obtain ⟨hkept, hways, hkeys⟩ := ih (acc.1.insert (heads acc.2 way).1, (heads acc.2 way).2)
        have hagain := heads_again hkept
        refine ⟨(kept_heads acc.2 way).trans hkept, ?_, fun name => (hkeys name).trans ?_⟩
        · exact List.forall_mem_cons.mpr ⟨congrArg Prod.snd hagain, hways⟩
        · simp only [List.foldl_cons, mem_keys_heads, List.mem_cons, exists_eq_or_imp, hagain, or_assoc]
  obtain ⟨_, hways, hkeys⟩ := hfold (.empty, [])
  exact ⟨hways, fun name => (hkeys name).trans (or_iff_right List.not_mem_nil)⟩

/-- The text of a tree mentions the variables of its ways. -/
theorem mem_mentioned_grow (h : ∀ way ∈ ways, NamedWay way) :
    name ∈ mentioned (grow ways).1.text ↔ name ∈ Fields.keys (grow ways).2 := by
  obtain ⟨_, hkeys⟩ := variables_grow ways
  have hnamed : ∀ way ∈ ways, ∀ head ∈ (heads (grow ways).2 way).1, head.Named :=
    fun way hway => named_heads (proper_grow h) (h way hway)
  rw [(ordered_grow ways).mem_mentioned_text, hkeys]
  constructor
  · rintro ⟨texts, text, hat, hname⟩
    obtain ⟨way, hway, hpre⟩ := (isSome_at?_grow ways (List.append_ne_nil_of_right_ne_nil _
      (List.cons_ne_nil _ _))).mp hat
    obtain ⟨head, hhead, rfl⟩ := List.mem_map.mp
      (hpre.subset (List.mem_append_right texts List.mem_cons_self))
    rw [(hnamed way hway head hhead).mentioned_text] at hname
    exact ⟨way, hway, head, hhead, hname⟩
  · rintro ⟨way, hway, head, hhead, hname⟩
    obtain ⟨before, after, hsplit⟩ := List.append_of_mem (List.mem_map_of_mem (f := Head.text) hhead)
    refine ⟨before, head.text, (isSome_at?_grow ways (List.append_ne_nil_of_right_ne_nil _
      (List.cons_ne_nil _ _))).mpr ⟨way, hway, after, ?_⟩, ?_⟩
    · rw [hsplit, List.append_assoc]
      rfl
    · rw [(hnamed way hway head hhead).mentioned_text]
      exact hname

theorem isEmpty_grow (hway : way ∈ ways) (hwritten : ∃ n ∈ way, n.isWritten = true) :
    (grow ways).1.isEmpty = false := by
  obtain ⟨n, hn, hwritten⟩ := hwritten
  have hlength : (heads (grow ways).2 (way.filter (·.isWritten))).1.length =
      (way.filter (·.isWritten)).length :=
    length_heads _ fun n hn => (List.mem_filter.mp hn).2
  have hpositive := List.length_pos_of_mem (List.mem_filter.mpr ⟨hn, hwritten⟩)
  rw [heads_written] at hlength
  cases hheads : (heads (grow ways).2 way).1 with
  | nil =>
      rw [hheads] at hlength
      exact absurd hlength.symm (Nat.ne_of_gt hpositive)
  | cons head rest =>
      have hoccurs := (isSome_at?_grow ways (List.cons_ne_nil head.text [])).mpr
        ⟨way, hway, by rw [hheads]; exact List.cons_prefix_cons.mpr ⟨rfl, List.nil_prefix⟩⟩
      cases htree : (grow ways).1 with
      | node children =>
          cases children with
          | nil =>
              rw [htree] at hoccurs
              cases hoccurs
          | cons q children => rfl

/-! ### Documents -/

/-- The header, the fields and the values of a document are about the same variables, and no two
of them have one type and equal values. -/
structure Coherent (d : Document) : Prop where
  declared : (∀ v ∈ d.declared, '$' ∉ v.2.type.toList) →
    mentioned (header d.declared) = Fields.keys d.declared
  used : ∀ name, name ∈ mentioned d.fields.text ↔ name ∈ Fields.keys d.declared
  given : Fields.keys (d.variableValues.getD []) = Fields.keys d.declared
  distinct : ∀ v ∈ d.declared, ∀ w ∈ d.declared, v.2.type = w.2.type →
    v.2.value.equal w.2.value = true → v = w

/-- The document writes the nodes of a selection, the root apart, with all their arguments. -/
structure Requests (d : Document) (s : Selection) : Prop where
  operation : s.operation? = some d.operation
  occurs : (d.fields.at? ((d.headsOf s).map Head.text)).isSome = true
  heads : List.Forall₂ (Writes d.declared) (s.ancestry.tail.filter (·.isWritten)) (d.headsOf s)

theorem keys_variableValues (d : Document) :
    Fields.keys (d.variableValues.getD []) = Fields.keys d.declared := by
  rw [variableValues]
  split
  · rename_i hnone
    rw [hnone]
    rfl
  · simp [Fields.keys, Fields.mapValues]

/-- The document is grown of routes of selections. -/
structure GrownOf (ss : List Selection) (rs : List Route) (d : Document) : Prop where
  routes : ∀ r ∈ rs, r.operation = d.operation ∧ ∃ s ∈ ss, route? s = .ok (some r)
  grown : grow (rs.map fun r => r.first :: r.rest) = (d.fields, d.declared)

section

variable {ss : List Selection} {operationName : Option String} {documents : List Document}
  {d : Document} {rs : List Route}

theorem exists_grownOf (h : ofArranged ss operationName = .ok documents) (hd : d ∈ documents) :
    ∃ rs, GrownOf ss rs d := by
  obtain ⟨rs, group, hgrow, hrs⟩ := exists_group h hd
  refine ⟨rs, fun r hr => ?_, hgrow⟩
  obtain ⟨hthere, hoperation, _⟩ := (hrs r).mp hr
  exact ⟨hoperation, hthere⟩

theorem exists_document (h : ofArranged ss operationName = .ok documents) {s : Selection}
    (hs : s ∈ ss) {r : Route} (hroute : route? s = .ok (some r))
    (hwritten : ∃ n ∈ r.first :: r.rest, n.isWritten = true) :
    ∃ d ∈ documents, ∃ rs, r ∈ rs ∧ GrownOf ss rs d := by
  rw [ofArranged] at h
  cases hroutes : ss.mapM route? with
  | error e =>
      rw [hroutes] at h
      cases h
  | ok found =>
      rw [hroutes] at h
      obtain rfl := Except.ok.inj h
      let routes := found.filterMap fun r => r
      let rs := (routes.filter (·.operation == r.operation)).filter (·.group == r.group)
      have hthere : ∀ r ∈ routes, ∃ s ∈ ss, route? s = .ok (some r) := by
        intro r hr
        obtain ⟨_, hr, rfl⟩ := List.mem_filterMap.mp hr
        exact (mem_iff_of_mapM_ok hroutes).mp hr
      have hours : r ∈ routes.filter (·.operation == r.operation) := by
        refine List.mem_filter.mpr ⟨List.mem_filterMap.mpr ⟨some r, ?_, rfl⟩, beq_self_eq_true _⟩
        exact (mem_iff_of_mapM_ok hroutes).mpr ⟨s, hs, hroute⟩
      have hr : r ∈ rs := List.mem_filter.mpr ⟨hours, beq_self_eq_true _⟩
      have hgroup : rs ∈ groups r.operation routes :=
        List.mem_map.mpr ⟨r.group, mem_groupNames.mpr ⟨r, hours, rfl⟩, rfl⟩
      let document : Document :=
        { operation := r.operation
          operationName
          fields := (grow (rs.map fun r => r.first :: r.rest)).1
          declared := (grow (rs.map fun r => r.first :: r.rest)).2 }
      have hdocument : ofGroup? r.operation operationName rs = some document := by
        have hfull := isEmpty_grow (List.mem_map_of_mem (f := fun r => r.first :: r.rest) hr)
          hwritten
        rw [ofGroup?]
        simp only [hfull, Bool.false_eq_true, if_false]
        rfl
      have hmem : document ∈ Operation.all.flatMap fun operation =>
          (groups operation routes).filterMap (ofGroup? operation operationName) :=
        List.mem_flatMap.mpr ⟨r.operation, by cases r.operation <;> decide,
          List.mem_filterMap.mpr ⟨rs, hgroup, hdocument⟩⟩
      refine ⟨document, hmem, rs, hr, fun other hother => ?_, rfl⟩
      obtain ⟨hother, _⟩ := List.mem_filter.mp hother
      obtain ⟨hother, hoperation⟩ := List.mem_filter.mp hother
      exact ⟨beq_iff_eq.mp hoperation, hthere other hother⟩

variable (hn : ∀ s ∈ ss, NamedWay s.ancestry)

include hn

theorem GrownOf.named (h : GrownOf ss rs d) :
    ∀ way ∈ rs.map fun r => r.first :: r.rest, NamedWay way := by
  intro way hway
  obtain ⟨r, hr, rfl⟩ := List.mem_map.mp hway
  obtain ⟨s, hs, hroute⟩ := (h.routes r hr).2
  obtain ⟨_, top, he⟩ := route?_eq_some_iff.mp hroute
  exact fun n hmem => hn s hs n (he ▸ List.mem_cons_of_mem top hmem)

theorem GrownOf.coherent (h : GrownOf ss rs d) : d.Coherent := by
  have hnamed := h.named hn
  have hproper := proper_grow hnamed
  have hused := fun name => @mem_mentioned_grow _ name hnamed
  rw [h.grown] at hproper hused
  exact ⟨mentioned_header hproper.named, hused, d.keys_variableValues, hproper.distinct⟩

theorem GrownOf.requests (h : GrownOf ss rs d) {s : Selection} {r : Route} (hr : r ∈ rs)
    (hroute : route? s = .ok (some r)) : d.Requests s := by
  obtain ⟨ho, top, he⟩ := route?_eq_some_iff.mp hroute
  have hway : r.first :: r.rest ∈ rs.map fun r => r.first :: r.rest := List.mem_map_of_mem hr
  have hproper := proper_grow (h.named hn)
  have hkept := (variables_grow (rs.map fun r => r.first :: r.rest)).1 _ hway
  rw [h.grown] at hproper hkept
  have hheads : d.headsOf s = (heads d.declared (r.first :: r.rest)).1 := by
    rw [headsOf, he, List.tail_cons]
  refine ⟨(h.routes r hr).1 ▸ ho, ?_, ?_⟩
  · rw [hheads]
    by_cases hne : (heads d.declared (r.first :: r.rest)).1.map Head.text = []
    · rw [hne]
      rfl
    · have hoccurs := isSome_at?_grow (rs.map fun r => r.first :: r.rest) hne
      rw [h.grown] at hoccurs
      exact hoccurs.mpr ⟨_, hway, List.prefix_refl _⟩
  · rw [hheads, he, List.tail_cons]
    apply writes_heads _ hproper.ascending
    rw [hkept]
    exact .refl _

/-- What occurs in a document is a part of a selection that it writes. -/
theorem GrownOf.exists_requests (h : GrownOf ss rs d) {texts : List String} (hne : texts ≠ [])
    (hat : (d.fields.at? texts).isSome = true) :
    ∃ s ∈ ss, d.Requests s ∧ texts <+: (d.headsOf s).map Head.text := by
  have hoccurs := isSome_at?_grow (rs.map fun r => r.first :: r.rest) hne
  rw [h.grown] at hoccurs
  obtain ⟨way, hway, hpre⟩ := hoccurs.mp hat
  obtain ⟨r, hr, rfl⟩ := List.mem_map.mp hway
  obtain ⟨s, hs, hroute⟩ := (h.routes r hr).2
  obtain ⟨_, top, he⟩ := route?_eq_some_iff.mp hroute
  refine ⟨s, hs, h.requests hn hr hroute, ?_⟩
  rw [headsOf, he]
  exact hpre

end

section

variable {f : Selection.Forest} {roots ss : List Selection}

/-- Selections of one tree for each operation. All their nodes are legal, with names for the
arguments. -/
structure NamedSelections (ss : List Selection) : Prop where
  operation : ∀ s ∈ ss, s.operation? ≠ none
  tree : ∀ s ∈ ss, ∀ t ∈ ss, s.operation? = t.operation? → s.rootNode.id = t.rootNode.id
  ways : ∀ s ∈ ss, NamedWay s.ancestry

theorem mem_arrange_of_named (hf : f.Sound roots) (hss : ss ⊆ f.handed roots)
    (hn : NamedSelections ss) {s : Selection} : s ∈ arrange ss ↔ s ∈ ss :=
  Sound.mem_arrange_of_undotted hf hss hn.tree
    fun s hs n hmem => Node.undotted_label (hn.ways s hs n hmem).1

/-- The documents of a builder are coherent. What occurs in one is a part of a selection that it
writes with all arguments, and each selection with something to write is written in one. -/
theorem build_binds {b : Builder} (hf : f.Grown roots) (hb : b.Used (f.handed roots))
    (hss : ss ⊆ f.handed roots) (hn : NamedSelections ss) (operationName : Option String) :
    ∃ documents, (b.build ss operationName).1 = .ok documents ∧
      (∀ d ∈ documents, d.Coherent ∧ ∀ texts, texts ≠ [] → (d.fields.at? texts).isSome = true →
        ∃ s ∈ ss, d.Requests s ∧ texts <+: (d.headsOf s).map Head.text) ∧
      ∀ s ∈ ss, (∃ n ∈ s.ancestry.tail, n.isWritten = true) → ∃ d ∈ documents, d.Requests s := by
  have hmem : ∀ {s}, s ∈ arrange ss ↔ s ∈ ss := mem_arrange_of_named hf.sound hss hn
  have hways : ∀ s ∈ arrange ss, NamedWay s.ancestry := fun s hs => hn.ways s (hmem.mp hs)
  obtain ⟨compiledName, hbuild⟩ := hb.exists_build hf.sound.ids hss operationName
  obtain ⟨documents, hdocuments⟩ := exists_ofArranged
    (fun s hs => hn.operation s (hmem.mp hs)) compiledName
  refine ⟨documents, hbuild.trans hdocuments, fun d hd => ?_, fun s hs hwritten => ?_⟩
  · obtain ⟨rs, hgrown⟩ := exists_grownOf hdocuments hd
    refine ⟨hgrown.coherent hways, fun texts hne hat => ?_⟩
    obtain ⟨s, hs, hrequests⟩ := hgrown.exists_requests hways hne hat
    exact ⟨s, hmem.mp hs, hrequests⟩
  · obtain ⟨operation, hoperation⟩ := Option.ne_none_iff_exists'.mp (hn.operation s hs)
    obtain ⟨n, hn, hwritten⟩ := hwritten
    obtain ⟨r, hroute, hway⟩ : ∃ r, route? s = .ok (some r) ∧ s.ancestry.tail = r.first :: r.rest := by
      cases hancestry : s.ancestry with
      | nil =>
          rw [hancestry] at hn
          exact absurd hn List.not_mem_nil
      | cons top nodes =>
          rw [hancestry, List.tail_cons] at hn
          cases nodes with
          | nil => exact absurd hn List.not_mem_nil
          | cons first rest =>
              exact ⟨⟨operation, first, rest⟩,
                route?_eq_some_iff.mpr ⟨hoperation, top, hancestry⟩, rfl⟩
    rw [hway] at hn
    obtain ⟨d, hd, rs, hr, hgrown⟩ :=
      exists_document hdocuments (hmem.mpr hs) hroute ⟨n, hn, hwritten⟩
    exact ⟨d, hd, hgrown.requests hways hr hroute⟩

end

namespace Shelf

/-- The price is asked for in a currency, next to fields without arguments. -/
theorem build_binds_chosen :
    (added.2.Grown roots ∧ (Builder.new 4).Used (added.2.handed roots) ∧
      chosen ⊆ added.2.handed roots ∧ NamedSelections chosen ∧
      ∃ n ∈ price.1.ancestry.tail, n.isWritten = true) ∧
    ∃ documents, ((Builder.new 4).build chosen none).1 = .ok documents ∧
      (∀ d ∈ documents, d.Coherent ∧ ∀ texts, texts ≠ [] → (d.fields.at? texts).isSome = true →
        ∃ s ∈ chosen, d.Requests s ∧ texts <+: (d.headsOf s).map Head.text) ∧
      ∀ s ∈ chosen, (∃ n ∈ s.ancestry.tail, n.isWritten = true) → ∃ d ∈ documents, d.Requests s := by
  have hways : ∀ s ∈ chosen, NamedWay s.ancestry := by
    unfold NamedWay
    decide +kernel
  have hnamed : NamedSelections chosen := ⟨by decide +kernel, by decide +kernel, hways⟩
  exact ⟨⟨grown.1, .new 4, grown.2, hnamed, by decide +kernel⟩,
    build_binds grown.1 (.new 4) grown.2 hnamed none⟩

end Shelf

end Document
end LazyGraph
