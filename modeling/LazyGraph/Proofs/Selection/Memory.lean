import LazyGraph.Proofs.Selection.Typing

/-!
What a forest remembers. A child is remembered under its parent and its label, which is an alias or
a key, so the first call for a place decides what stands there, and all calls for it get that node.
-/
namespace LazyGraph.Selection

/-- A call for a child. -/
structure Call where
  parent : Selection
  key : Key
  aliasName : Option String := none
  arguments : Fields Argument := []
  isBranch : Bool := false
  deriving Inhabited

namespace Call

/-- The alias that the child gets. -/
def childName (c : Call) : Option String :=
  childAlias c.key c.aliasName c.arguments c.parent.aliasLength

/-- The text under which the child is remembered. -/
def label (c : Call) : String := c.childName.getD c.key.text

/-- Where the child is remembered. -/
def place (c : Call) : Nat × String := (c.parent.id, c.label)

/-- The digest of the arguments in a generated alias: their types are no part of it. -/
def digest (c : Call) : String :=
  Digest.short [c.key.text, (Json.object (Fields.mapValues (·.value) c.arguments)).canonical]
    c.parent.aliasLength

/-- The child that is made if none is remembered. -/
def child (c : Call) (id : Nat) : Selection where
  node :=
    { id, key := c.key, aliasName := c.childName, arguments := c.arguments, isBranch := c.isBranch }
  above := c.parent.node :: c.parent.above
  aliasLength := c.parent.aliasLength

/-! ### Labels -/

variable {c d : Call}

theorem label_of_alias {a : String} (h : c.aliasName = some a) : c.label = a := by
  rw [label, childName, h, childAlias]
  rfl

theorem label_of_plain (h : c.aliasName = none) (ha : c.arguments = []) :
    c.label = c.key.text := by
  rw [label, childName, h, ha]
  rfl

theorem label_of_arguments (h : c.aliasName = none) (ha : c.arguments ≠ []) :
    c.label = c.key.text ++ "_" ++ c.digest := by
  cases harguments : c.arguments with
  | nil => exact absurd harguments ha
  | cons a arguments =>
      rw [label, childName, h, harguments, digest, harguments]
      simp only [childAlias, Option.getD_some, generatedAlias, toString]

/-- The types of the arguments are no part of the digest. -/
theorem digest_congr (key : c.key = d.key) (parent : c.parent = d.parent)
    (values : Fields.mapValues (·.value) c.arguments = Fields.mapValues (·.value) d.arguments) :
    c.digest = d.digest := by
  rw [digest, digest, key, parent, values]

theorem digest_of_zero (h : c.parent.aliasLength = 0) : c.digest = "" := by
  rw [digest, h, Digest.short, List.take_zero]

/-- Generated aliases are equal if the keys are and the digests are. -/
theorem label_eq_iff_of_arguments (hc : c.aliasName = none) (hd : d.aliasName = none)
    (hca : c.arguments ≠ []) (hda : d.arguments ≠ []) :
    c.label = d.label ↔ c.key.text = d.key.text ∧ c.digest = d.digest := by
  have hmark : ∀ b : Call, '_' ∉ b.digest.toList := by
    intro b hm
    exact underscore_not_mem_hexDigits (mem_hexDigits_of_mem_short _ _ _ hm)
  have htext : ∀ b : Call, (b.key.text ++ "_" ++ b.digest).toList =
      b.key.text.toList ++ '_' :: b.digest.toList := by
    intro b
    rw [String.toList_append, String.toList_append, List.append_assoc]
    rfl
  rw [label_of_arguments hc hca, label_of_arguments hd hda]
  constructor
  · intro h
    have hlist := congrArg String.toList h
    rw [htext, htext] at hlist
    obtain ⟨hkey, hdigest⟩ := eq_of_append_mark (hmark c) (hmark d) hlist
    exact ⟨String.toList_inj.mp hkey, String.toList_inj.mp hdigest⟩
  · rintro ⟨hkey, hdigest⟩
    rw [hkey, hdigest]

end Call

namespace Forest

def answer (f : Forest) (c : Call) : Selection × Forest :=
  f.child c.parent c.key c.aliasName c.arguments c.isBranch

/-- Calls that are made one after the other, each with its answer. -/
def answers (f : Forest) : List Call → List (Call × Selection)
  | [] => []
  | c :: calls => (c, (f.answer c).1) :: (f.answer c).2.answers calls

def afterCalls (f : Forest) (calls : List Call) : Forest :=
  calls.foldl (fun f c => (f.answer c).2) f

/-- The forests that roots, calls and pruning lead to. -/
inductive Tended : Forest → Prop
  | empty : Tended {}
  | root {f : Forest} (tended : Tended f) (key : String) (aliasLength : Nat) :
    Tended (f.newRoot key aliasLength).2
  | call {f : Forest} (tended : Tended f) (c : Call) : Tended (f.answer c).2
  | prune {f : Forest} (tended : Tended f) (id : Nat) : Tended (f.prune id)

variable {f : Forest} {c : Call} {calls : List Call} {s t : Selection} {x y : Call × Selection}

/-! ### One call -/

/-- A child that is remembered is the answer. -/
theorem answer_of_remembered (h : f.child? c.parent.id c.label = some s) : f.answer c = (s, f) := by
  rw [answer, Forest.child]
  split
  · rename_i found
    rw [Option.some.inj (found.symm.trans h)]
  · rename_i missing
    cases missing.symm.trans h

/-- Where none is remembered, a new child is. -/
theorem answer_of_new (h : f.child? c.parent.id c.label = none) :
    f.answer c = (c.child f.nextId,
      { nextId := f.nextId + 1
        growth := f.growth ++ [{ parent := c.parent.id, child := c.child f.nextId }] }) := by
  rw [answer, Forest.child]
  split
  · rename_i found
    cases found.symm.trans h
  · rfl

/-- An entry that is added is found where nothing was. -/
theorem child?_append (f : Forest) (nextId : Nat) (g : Growth) (parent : Nat) (label : String) :
    child? { nextId, growth := f.growth ++ [g] } parent label = (f.child? parent label).or
      (if (g.parent, g.child.node.label) = (parent, label) then some g.child else none) := by
  unfold child?
  rw [List.find?_append, Option.map_or, List.find?_singleton]
  congr 1
  by_cases hplace : (g.parent, g.child.node.label) = (parent, label)
  · obtain ⟨rfl, rfl⟩ := Prod.mk.inj hplace
    simp
  · rw [if_neg hplace]
    have hother : (g.parent == parent && g.child.node.label == label) = false := by
      simpa using hplace
    rw [hother]
    rfl

/-- What is remembered stays so. -/
theorem child?_answer {parent : Nat} {label : String} (h : f.child? parent label = some s)
    (c : Call) : (f.answer c).2.child? parent label = some s := by
  cases hc : f.child? c.parent.id c.label with
  | some t =>
      rw [answer_of_remembered hc]
      exact h
  | none =>
      rw [answer_of_new hc, child?_append, h]
      rfl

theorem child?_answer_of_ne {parent : Nat} {label : String} (h : c.place ≠ (parent, label)) :
    (f.answer c).2.child? parent label = f.child? parent label := by
  cases hc : f.child? c.parent.id c.label with
  | some t => rw [answer_of_remembered hc]
  | none =>
      have hother : (c.parent.id, (c.child f.nextId).node.label) ≠ (parent, label) := h
      rw [answer_of_new hc, child?_append, if_neg hother, Option.or_none]

/-- The answer to a call is remembered. -/
theorem child?_answer_self (f : Forest) (c : Call) :
    (f.answer c).2.child? c.parent.id c.label = some (f.answer c).1 := by
  cases hc : f.child? c.parent.id c.label with
  | some t =>
      rw [answer_of_remembered hc]
      exact hc
  | none =>
      have hself : (c.parent.id, (c.child f.nextId).node.label) = (c.parent.id, c.label) := rfl
      rw [answer_of_new hc, child?_append, hc, if_pos hself]
      rfl

/-- A second call for a place gets what the first one got. -/
theorem answer_again (f : Forest) {d : Call} (h : d.place = c.place) :
    ((f.answer c).2.answer d).1 = (f.answer c).1 := by
  obtain ⟨hparent, hlabel⟩ := Prod.mk.inj h
  have hself := child?_answer_self f c
  rw [← hparent, ← hlabel] at hself
  rw [answer_of_remembered hself]

/-! ### Runs of calls -/

theorem child?_afterCalls {parent : Nat} {label : String} (h : f.child? parent label = some s)
    (calls : List Call) : (f.afterCalls calls).child? parent label = some s := by
  induction calls generalizing f with
  | nil => exact h
  | cons c calls ih => exact ih (child?_answer h c)

/-- Every answer is still remembered at the end. -/
theorem remembered_of_mem (h : x ∈ f.answers calls) :
    (f.afterCalls calls).child? x.1.parent.id x.1.label = some x.2 := by
  induction calls generalizing f with
  | nil => cases h
  | cons c calls ih =>
      rcases List.mem_cons.mp h with rfl | h
      · exact child?_afterCalls (child?_answer_self f c) calls
      · exact ih h

/-- A place where nothing was remembered is taken by the first call for it. -/
theorem first_of_mem (h : x ∈ f.answers calls)
    (new : f.child? x.1.parent.id x.1.label = none) :
    ∃ first id, calls.find? (fun c => c.place = x.1.place) = some first ∧
      x.2 = first.child id := by
  induction calls generalizing f with
  | nil => cases h
  | cons c calls ih =>
      by_cases hplace : c.place = x.1.place
      · obtain ⟨hparent, hlabel⟩ := Prod.mk.inj hplace
        have hnew : f.child? c.parent.id c.label = none := by
          rw [hparent, hlabel]
          exact new
        have hleft := remembered_of_mem h
        have hmade : (f.answer c).2.child? x.1.parent.id x.1.label = some (f.answer c).1 := by
          rw [← hparent, ← hlabel]
          exact child?_answer_self f c
        have hsame := (child?_afterCalls hmade calls).symm.trans hleft
        refine ⟨c, f.nextId, List.find?_cons_of_pos (decide_eq_true hplace), ?_⟩
        rw [← Option.some.inj hsame, answer_of_new hnew]
      · rcases List.mem_cons.mp h with rfl | h
        · exact absurd rfl hplace
        · have hother : (f.answer c).2.child? x.1.parent.id x.1.label = none := by
            rw [child?_answer_of_ne hplace]
            exact new
          obtain ⟨first, id, hfirst, hx⟩ := ih h hother
          refine ⟨first, id, ?_, hx⟩
          rw [List.find?_cons_of_neg (by simpa using hplace)]
          exact hfirst

/-! ### Numbers -/

/-- The nodes that are remembered have different numbers, which were given before. -/
structure Numbered (f : Forest) : Prop where
  ids : (f.growth.map (·.child.id)).Nodup
  earlier : ∀ g ∈ f.growth, g.child.id < f.nextId

theorem dropBelow_sublist (cut : List Nat) (growth : List Growth) :
    (dropBelow cut growth).Sublist growth := by
  induction growth generalizing cut with
  | nil => exact .slnil
  | cons g growth ih =>
      unfold dropBelow
      split
      · exact (ih _).cons g
      · exact (ih _).cons_cons g

theorem Numbered.answer (h : f.Numbered) (c : Call) : (f.answer c).2.Numbered := by
  cases hc : f.child? c.parent.id c.label with
  | some t =>
      rw [answer_of_remembered hc]
      exact h
  | none =>
      rw [answer_of_new hc]
      constructor
      · rw [List.map_append, List.nodup_append]
        refine ⟨h.ids, List.nodup_singleton _, ?_⟩
        intro a ha b hb
        obtain ⟨g, hg, rfl⟩ := List.mem_map.mp ha
        rw [List.mem_singleton.mp hb]
        exact Nat.ne_of_lt (h.earlier g hg)
      · refine List.forall_mem_append.mpr ⟨?_, List.forall_mem_singleton.mpr (Nat.lt_succ_self _)⟩
        intro g hg
        exact Nat.lt_succ_of_lt (h.earlier g hg)

theorem Tended.numbered (h : f.Tended) : f.Numbered := by
  induction h with
  | empty => exact ⟨List.nodup_nil, fun _ hg => absurd hg List.not_mem_nil⟩
  | root _ key aliasLength ih => exact ⟨ih.ids, fun g hg => Nat.lt_succ_of_lt (ih.earlier g hg)⟩
  | call _ c ih => exact ih.answer c
  | @prune f _ id ih =>
      have hsub := dropBelow_sublist [id] f.growth
      exact ⟨ih.ids.sublist (hsub.map _), fun g hg => ih.earlier g (hsub.subset hg)⟩

theorem Tended.afterCalls (h : f.Tended) (calls : List Call) : (f.afterCalls calls).Tended := by
  induction calls generalizing f with
  | nil => exact h
  | cons c calls ih => exact ih (h.call c)

/-- A node is remembered in one place. -/
theorem Numbered.place_eq (h : f.Numbered) {parent other : Nat} {label name : String}
    (hs : f.child? parent label = some s) (ht : f.child? other name = some t)
    (hid : s.id = t.id) : parent = other ∧ label = name := by
  obtain ⟨g, hg, rfl⟩ := Option.map_eq_some_iff.mp hs
  obtain ⟨g', hg', rfl⟩ := Option.map_eq_some_iff.mp ht
  have hfound := List.find?_some hg
  have hfound' := List.find?_some hg'
  obtain rfl := List.inj_on_of_nodup_map h.ids (List.mem_of_find?_eq_some hg)
    (List.mem_of_find?_eq_some hg') hid
  simp only [Bool.and_eq_true, beq_iff_eq] at hfound hfound'
  exact ⟨hfound.1.symm.trans hfound'.1, hfound.2.symm.trans hfound'.2⟩

theorem same_iff (h : f.Numbered) (hs : f.child? x.1.parent.id x.1.label = some x.2)
    (ht : f.child? y.1.parent.id y.1.label = some y.2) :
    x.2.id = y.2.id ↔ x.1.place = y.1.place := by
  constructor
  · intro hid
    obtain ⟨hparent, hlabel⟩ := h.place_eq hs ht hid
    exact Prod.ext hparent hlabel
  · intro hplace
    obtain ⟨hparent, hlabel⟩ := Prod.mk.inj hplace
    rw [hparent, hlabel] at hs
    rw [Option.some.inj (hs.symm.trans ht)]

/-- A node stands for all calls for one place. Two calls get one node exactly if they are for one
parent and one label, so calls that ask for the same do. What stands there is what was remembered
before, or else what the first call for the place asked for. The label is an explicit alias; without
one it is that of the key, or of the key and a digest of the argument values. -/
theorem answers_same_iff (tended : f.Tended) (calls : List Call) (hx : x ∈ f.answers calls)
    (hy : y ∈ f.answers calls) :
    (x.2.id = y.2.id ↔ x.1.place = y.1.place) ∧
    (x.1.parent = y.1.parent → x.1.key = y.1.key → x.1.aliasName = y.1.aliasName →
      x.1.arguments = y.1.arguments → x.2 = y.2) ∧
    (∀ s, f.child? x.1.parent.id x.1.label = some s → x.2 = s) ∧
    (f.child? x.1.parent.id x.1.label = none →
      ∃ first id, calls.find? (fun c => c.place = x.1.place) = some first ∧
        x.2 = first.child id) ∧
    (x.1.parent = y.1.parent →
      (∀ a b, x.1.aliasName = some a → y.1.aliasName = some b → (x.2.id = y.2.id ↔ a = b)) ∧
      (x.1.aliasName = none → y.1.aliasName = none →
        (x.1.arguments = [] → y.1.arguments = [] →
          (x.2.id = y.2.id ↔ x.1.key.text = y.1.key.text)) ∧
        (x.1.arguments ≠ [] → y.1.arguments ≠ [] →
          (x.2.id = y.2.id ↔ x.1.key.text = y.1.key.text ∧ x.1.digest = y.1.digest)) ∧
        (x.1.arguments = [] → y.1.arguments ≠ [] →
          (x.2.id = y.2.id ↔ x.1.key.text = y.1.key.text ++ "_" ++ y.1.digest)))) := by
  have hleft := remembered_of_mem hx
  have hright := remembered_of_mem hy
  have hsame := same_iff (tended.afterCalls calls).numbered hleft hright
  refine ⟨hsame, fun hparent hkey halias harguments => ?_, fun s hs => ?_, first_of_mem hx,
    fun hparent => ?_⟩
  · have hlabel : x.1.label = y.1.label := by
      rw [Call.label, Call.childName, hparent, hkey, halias, harguments]
      rfl
    rw [hparent, hlabel] at hleft
    exact Option.some.inj (hleft.symm.trans hright)
  · exact Option.some.inj (hleft.symm.trans (child?_afterCalls hs calls))
  · have hlabel : x.2.id = y.2.id ↔ x.1.label = y.1.label := by
      rw [hsame, Call.place, Call.place, hparent, Prod.mk.injEq]
      exact and_iff_right rfl
    rw [hlabel]
    refine ⟨fun a b hxa hyb => ?_, fun hxa hya => ⟨?_, ?_, ?_⟩⟩
    · rw [Call.label_of_alias hxa, Call.label_of_alias hyb]
    · intro hxn hyn
      rw [Call.label_of_plain hxa hxn, Call.label_of_plain hya hyn]
    · exact Call.label_eq_iff_of_arguments hxa hya
    · intro hxn hyn
      rw [Call.label_of_plain hxa hxn, Call.label_of_arguments hya hyn]

/-! ### Two fields under one alias -/

def queryRoot : Selection × Forest := ({} : Forest).newRoot "query" defaultAliasLength

def firstAliased : Call :=
  { parent := queryRoot.1, key := .field "a", aliasName := some "c" }

def secondAliased : Call :=
  { parent := queryRoot.1, key := .field "b", aliasName := some "c" }

def unaliased : Call := { parent := queryRoot.1, key := .field "a" }

def threeCalls : List Call := [firstAliased, secondAliased, unaliased]

/-- What the second call gets was made for the first one, and the third call gets another node. -/
theorem answers_same_iff_alias :
    ∃ x ∈ queryRoot.2.answers threeCalls, ∃ y ∈ queryRoot.2.answers threeCalls,
      queryRoot.2.Tended ∧ x.1 = secondAliased ∧ y.1 = unaliased ∧ x.2.id ≠ y.2.id ∧
      ∃ id, x.2 = firstAliased.child id := by
  have tended : queryRoot.2.Tended := .root .empty "query" defaultAliasLength
  let second := ((queryRoot.2.answer firstAliased).2.answer secondAliased)
  let third := second.2.answer unaliased
  have hx : (secondAliased, second.1) ∈ queryRoot.2.answers threeCalls :=
    List.mem_cons_of_mem _ List.mem_cons_self
  have hy : (unaliased, third.1) ∈ queryRoot.2.answers threeCalls :=
    List.mem_cons_of_mem _ (List.mem_cons_of_mem _ List.mem_cons_self)
  obtain ⟨same, _, _, made, _⟩ := answers_same_iff tended threeCalls hx hy
  obtain ⟨first, id, hfirst, hchild⟩ := made rfl
  have hfound : threeCalls.find? (fun c => c.place = secondAliased.place) = some firstAliased := rfl
  obtain rfl := Option.some.inj (hfound.symm.trans hfirst)
  exact ⟨_, hx, _, hy, tended, rfl, rfl, fun h => absurd (same.mp h) (by decide), id, hchild⟩

/-- A call for the user with an id, which is passed as a value of `type`. -/
def userCall (parent : Selection) (type : String) (id : Int) : Call :=
  { parent, key := .field "user", arguments := [("id", { type, value := .int id })] }

/-- A root below which generated aliases hold no digits. -/
def shortRoot : Selection × Forest := ({} : Forest).newRoot "query" 0

/-- The second call gets a node for another field than it asked for, for an argument of another
type, or, where digests are cut too short, for an argument of another value. -/
theorem second_gets_first :
    (((queryRoot.2.answer firstAliased).2.answer secondAliased).1 =
        (queryRoot.2.answer firstAliased).1 ∧ firstAliased.key ≠ secondAliased.key) ∧
    (((queryRoot.2.answer (userCall queryRoot.1 "ID!" 1)).2.answer
        (userCall queryRoot.1 "Int!" 1)).1 =
      (queryRoot.2.answer (userCall queryRoot.1 "ID!" 1)).1 ∧ "ID!" ≠ "Int!") ∧
    ((shortRoot.2.answer (userCall shortRoot.1 "ID!" 1)).2.answer
        (userCall shortRoot.1 "ID!" 2)).1 =
      (shortRoot.2.answer (userCall shortRoot.1 "ID!" 1)).1 := by
  have plain : ∀ (parent : Selection) (type : String) (id : Int),
      (userCall parent type id).label = "user_" ++ (userCall parent type id).digest := by
    intro parent type id
    exact Call.label_of_arguments rfl (List.cons_ne_nil _ _)
  refine ⟨⟨answer_again _ rfl, by decide⟩, ⟨answer_again _ ?_, by decide⟩, answer_again _ ?_⟩
  · have hdigest : (userCall queryRoot.1 "Int!" 1).digest = (userCall queryRoot.1 "ID!" 1).digest :=
      Call.digest_congr rfl rfl rfl
    rw [Call.place, Call.place, plain, plain, hdigest]
    rfl
  · rw [Call.place, Call.place, plain, plain, Call.digest_of_zero rfl, Call.digest_of_zero rfl]
    rfl

end Forest
end LazyGraph.Selection
