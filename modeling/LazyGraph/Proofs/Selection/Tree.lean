import LazyGraph.Proofs.Selection
import LazyGraph.Proofs.Text.Blank

/-!
Forests that were never pruned. The labels on the way down from a root tell a selection of its
tree, and so does a signature whose labels hold no dot.
-/
namespace LazyGraph.Selection

/-! ### Names of the query language -/

def isNameStart (c : Char) : Bool := c.isAlpha || c == '_'

def isNameChar (c : Char) : Bool := isNameStart c || c.isDigit

/-- A letter or an underscore, with letters, digits and underscores after it. -/
def isGraphName (s : String) : Bool :=
  match s.toList with
  | [] => false
  | c :: cs => isNameStart c && cs.all isNameChar

theorem isNameChar_of_isGraphName {s : String} (h : isGraphName s = true) :
    ∀ c ∈ s.toList, isNameChar c = true := by
  rw [isGraphName] at h
  split at h
  · cases h
  · rename_i c cs he
    rw [Bool.and_eq_true] at h
    rw [he]
    refine List.forall_mem_cons.mpr ⟨?_, List.all_eq_true.mp h.2⟩
    rw [isNameChar, h.1, Bool.true_or]

theorem exists_cons_of_isGraphName {s : String} (hs : isGraphName s = true) :
    ∃ c cs, s.toList = c :: cs ∧ isNameChar c = true := by
  cases hlist : s.toList with
  | nil =>
      rw [isGraphName, hlist] at hs
      cases hs
  | cons c cs =>
      refine ⟨c, cs, rfl, isNameChar_of_isGraphName hs c ?_⟩
      rw [hlist]
      exact List.mem_cons_self

/-- Letters, digits and underscores are no blanks. -/
theorem isBlank_of_isNameChar {c : Char} (h : isNameChar c = true) :
    Text.isBlank c = false := by
  have hwithin {first last : Char} (h : first ≤ c ∧ c ≤ last) (hfirst : '0' ≤ first)
      (hlast : last ≤ 'z') : Text.isBlank c = false :=
    Text.isBlank_of_between (Char.le_trans hfirst h.1) (Char.le_trans h.2 hlast)
  rw [isNameChar, isNameStart, Bool.or_eq_true, Bool.or_eq_true] at h
  rcases h with (hletter | hunderscore) | hdigit
  · rcases Bool.or_eq_true_iff.mp hletter with hupper | hlower
    · have hbounds : 'A' ≤ c ∧ c ≤ 'Z' := of_decide_eq_true hupper
      exact hwithin hbounds (by decide) (by decide)
    · obtain ⟨hfirst, hlast⟩ := Bool.and_eq_true_iff.mp hlower
      exact hwithin ⟨of_decide_eq_true hfirst, of_decide_eq_true hlast⟩ (by decide) (by decide)
  · rw [eq_of_beq hunderscore]
    decide
  · obtain ⟨hfirst, hlast⟩ := Bool.and_eq_true_iff.mp hdigit
    exact hwithin ⟨of_decide_eq_true hfirst, of_decide_eq_true hlast⟩ (by decide) (by decide)

theorem not_mem_of_isGraphName {s : String} (h : isGraphName s = true) {c : Char}
    (hc : isNameChar c = false) : c ∉ s.toList :=
  fun hm => Bool.eq_false_iff.mp hc (isNameChar_of_isGraphName h c hm)

theorem undotted_of_isGraphName {s : String} (h : isGraphName s = true) : '.' ∉ s.toList :=
  not_mem_of_isGraphName h (by decide)

theorem undotted_repr (n : Nat) : '.' ∉ n.repr.toList := by
  intro h
  rw [Nat.toList_repr] at h
  exact absurd (Nat.isDigit_of_mem_toDigits (by decide) (by decide) h) (by decide)

/-- The numeral of a position names that position, unless positions do not go so far. -/
theorem index?_toString {n i : Nat} (h : Text.index? (toString n) = some i) : i = n := by
  have hdigits : (toString n).toList = Nat.toDigits 10 n := Nat.toList_repr
  have hplain : ∀ rest, Nat.toDigits 10 n ≠ '+' :: rest := by
    intro rest he
    have hplus : '+' ∈ Nat.toDigits 10 n := he ▸ List.mem_cons_self
    exact absurd (Nat.isDigit_of_mem_toDigits (by decide) (by decide) hplus) (by decide)
  obtain ⟨hread, _⟩ := Option.filter_eq_some_iff.mp h
  rw [hdigits] at hread
  split at hread
  · exact absurd ‹_› (hplain _)
  · rw [Text.natural?] at hread
    split at hread
    · cases hread
    · rw [← Option.some.inj hread]
      exact Nat.ofDigitChars_toDigits (by decide) (by decide)

theorem isDigit_of_isNameStart {c : Char} (h : isNameStart c = true) :
    Text.isDigit c = false := by
  rw [← Bool.not_eq_true]
  intro hdigit
  simp only [Text.isDigit, Bool.and_eq_true, decide_eq_true_eq, Char.le_def,
    UInt32.le_iff_toNat_le] at hdigit
  have halpha : c.isAlpha = (c.isUpper || c.isLower) := rfl
  have hupper : c.isUpper = decide (65 ≤ c.val ∧ c.val ≤ 90) := rfl
  have hlower : c.isLower = (decide (97 ≤ c.val) && decide (c.val ≤ 122)) := rfl
  simp only [isNameStart, halpha, hupper, hlower, Bool.or_eq_true, Bool.and_eq_true,
    decide_eq_true_eq, UInt32.le_iff_toNat_le, beq_iff_eq] at h
  rcases h with (⟨h, _⟩ | ⟨h, _⟩) | rfl
  · exact absurd (Nat.le_trans h hdigit.2) (by decide)
  · exact absurd (Nat.le_trans h hdigit.2) (by decide)
  · exact absurd hdigit.2 (by decide)

theorem natural?_of_isNameStart {c : Char} (h : isNameStart c = true) (cs : List Char) :
    Text.natural? (c :: cs) = none := by
  rw [Text.natural?, List.all_cons, isDigit_of_isNameStart h]
  rfl

/-- A name of the query language is no position. -/
theorem index?_of_isGraphName {s : String} (h : isGraphName s = true) :
    Text.index? s = none := by
  rw [isGraphName] at h
  split at h
  · cases h
  · rename_i c cs hs
    obtain ⟨hstart, _⟩ := (Bool.and_eq_true _ _).mp h
    have hplus : c ≠ '+' := by
      rintro rfl
      exact absurd hstart (by decide)
    rw [Text.index?, hs]
    split
    · exact absurd (List.cons.inj ‹_›).1 hplus
    · rw [natural?_of_isNameStart hstart]
      rfl

namespace Node

/-- The key is a position, the `$on` node or a name, and the alias is a name if there is one. -/
def isLegal (n : Node) : Bool :=
  (match n.key with
  | .field name => isGraphName name || name == unionMarker
  | .index _ => true) && n.aliasName.all isGraphName

variable {n : Node}

theorem isGraphName_aliasName (h : n.isLegal = true) {a : String} (ha : n.aliasName = some a) :
    isGraphName a = true := by
  rw [isLegal, Bool.and_eq_true, ha] at h
  exact h.2

theorem isGraphName_key (h : n.isLegal = true) {name : String} (hkey : n.key = .field name)
    (hm : n.isMarker = false) : isGraphName name = true := by
  rw [isLegal, Bool.and_eq_true, hkey] at h
  rcases Bool.or_eq_true_iff.mp h.1 with h | h
  · exact h
  · rw [isMarker, hkey, eq_of_beq h, decide_eq_true rfl] at hm
    cases hm

theorem undotted_label (h : n.isLegal = true) : '.' ∉ n.label.toList := by
  rw [label]
  cases ha : n.aliasName with
  | some a => exact undotted_of_isGraphName (isGraphName_aliasName h ha)
  | none =>
      rw [isLegal, Bool.and_eq_true] at h
      cases hkey : n.key with
      | index position => exact undotted_repr position
      | field name =>
          rw [hkey] at h
          rcases Bool.or_eq_true_iff.mp h.1 with h | h
          · exact undotted_of_isGraphName h
          · rw [eq_of_beq h]
            decide

end Node

/-- The hexadecimal digits. -/
def hexDigits : List Char := "0123456789abcdef".toList

theorem mem_hexDigits_of_mem_hexWord (w : UInt32) : ∀ c ∈ Sha256.hexWord w, c ∈ hexDigits := by
  intro c hc
  obtain ⟨i, _, rfl⟩ := List.mem_map.mp hc
  have hdigit : ∀ n < 16, (if n < 10 then Char.ofNat ('0'.toNat + n)
      else Char.ofNat ('a'.toNat + n - 10)) ∈ hexDigits := by
    decide
  exact hdigit _ (Nat.mod_lt _ (by decide))

theorem mem_hexDigits_of_mem_short (parts : List String) (length : Nat) :
    ∀ c ∈ (Digest.short parts length).toList, c ∈ hexDigits := by
  intro c hc
  rw [Digest.short, String.toList_ofList] at hc
  obtain ⟨w, _, hc⟩ := List.mem_flatMap.mp (List.mem_of_mem_take hc)
  exact mem_hexDigits_of_mem_hexWord w c hc

theorem isNameChar_of_mem_hexDigits : ∀ c ∈ hexDigits, isNameChar c = true :=
  List.all_eq_true.mp (by decide)

/-- The alias of a field with arguments ends on digits of a digest. -/
theorem toList_generatedAlias (name : String) (arguments : Fields Argument) (length : Nat) :
    ∃ digits, (generatedAlias (.field name) arguments length).toList = name.toList ++ '_' :: digits ∧
      ∀ c ∈ digits, c ∈ hexDigits := by
  refine ⟨(Digest.short [name, (Json.object (Fields.mapValues (·.value) arguments)).canonical]
    length).toList, ?_, mem_hexDigits_of_mem_short _ _⟩
  simp only [generatedAlias, Key.text, toString, String.toList_append, List.append_assoc]
  rfl

/-- A name with a mark and more characters after it is a name as well. -/
theorem isGraphName_of_toList {s t : String} (h : isGraphName s = true) {suffix : List Char}
    (htext : t.toList = s.toList ++ '_' :: suffix) (hsuffix : ∀ c ∈ suffix, isNameChar c = true) :
    isGraphName t = true := by
  rw [isGraphName, htext]
  rw [isGraphName] at h
  split at h
  · cases h
  · rename_i c cs hname
    rw [Bool.and_eq_true] at h
    rw [hname]
    refine (Bool.and_eq_true _ _).mpr ⟨h.1, List.all_eq_true.mpr ?_⟩
    exact List.forall_mem_append.mpr ⟨List.all_eq_true.mp h.2, List.forall_mem_cons.mpr ⟨rfl, hsuffix⟩⟩

theorem isGraphName_generatedAlias {name : String} (h : isGraphName name = true)
    (arguments : Fields Argument) (length : Nat) :
    isGraphName (generatedAlias (.field name) arguments length) = true := by
  obtain ⟨digits, htext, hdigits⟩ := toList_generatedAlias name arguments length
  exact isGraphName_of_toList h htext fun c hc => isNameChar_of_mem_hexDigits c (hdigits c hc)

/-- A field that is named legally is legal, whatever its arguments. -/
theorem Node.isLegal_field {name : String} (hname : isGraphName name = true)
    {aliasName : Option String} (ha : aliasName.all isGraphName = true)
    (arguments : Fields Argument) (length id : Nat) (isBranch : Bool) :
    Node.isLegal
      { id, key := .field name
        aliasName := childAlias (.field name) aliasName arguments length
        arguments, isBranch } = true := by
  have halias : (childAlias (.field name) aliasName arguments length).all isGraphName = true := by
    cases aliasName with
    | some a => exact ha
    | none =>
        cases arguments with
        | nil => rfl
        | cons a arguments => exact isGraphName_generatedAlias hname _ length
  refine (Bool.and_eq_true _ _).mpr ⟨?_, halias⟩
  exact Bool.or_eq_true_iff.mpr (.inl hname)

/-! ### What grows -/

namespace Forest

/-- The roots with the nodes that were handed out below them. -/
def handed (f : Forest) (roots : List Selection) : List Selection :=
  roots ++ f.growth.map (·.child)

/-- Forests with their roots, as roots and children are asked for. -/
inductive Grown : Forest → List Selection → Prop
  | empty : Grown {} []
  | root {f : Forest} {roots : List Selection} (grown : Grown f roots) (key : String)
    (aliasLength : Nat) :
    Grown (f.newRoot key aliasLength).2 ((f.newRoot key aliasLength).1 :: roots)
  | child {f : Forest} {roots : List Selection} (grown : Grown f roots) {parent : Selection}
    (known : parent ∈ f.handed roots) (key : Key) (aliasName : Option String)
    (arguments : Fields Argument) (isBranch : Bool) :
    Grown (f.child parent key aliasName arguments isBranch).2 roots

/-- A node without nodes above it, which a plain key names. -/
structure IsRoot (s : Selection) : Prop where
  above : s.above = []
  aliasName : s.node.aliasName = none
  isBranch : s.node.isBranch = false
  key : ∃ name, s.node.key = .field name

/-- An entry remembers a child of this selection. -/
structure Remembers (parent : Selection) (g : Growth) : Prop where
  id : g.parent = parent.id
  above : g.child.above = parent.node :: parent.above
  aliasLength : g.child.aliasLength = parent.aliasLength

/-- Each node stands under a node that was handed out, apart from its brothers. -/
structure Sound (f : Forest) (roots : List Selection) : Prop where
  tops : ∀ s ∈ roots, IsRoot s
  grown : ∀ g ∈ f.growth, ∃ parent ∈ f.handed roots, Remembers parent g
  ids : ((f.handed roots).map (·.id)).Nodup
  earlier : ∀ s ∈ f.handed roots, s.id < f.nextId
  labels : (f.growth.map fun g => (g.parent, g.child.node.label)).Nodup

variable {f : Forest} {roots : List Selection} {s t parent : Selection}

theorem mem_handed : s ∈ f.handed roots ↔ s ∈ roots ∨ ∃ g ∈ f.growth, g.child = s := by
  rw [handed, List.mem_append, List.mem_map]

theorem Sound.eq_of_id (h : f.Sound roots) (hs : s ∈ f.handed roots) (ht : t ∈ f.handed roots)
    (he : s.id = t.id) : s = t :=
  List.inj_on_of_nodup_map h.ids hs ht he

theorem Sound.newRoot (h : f.Sound roots) (key : String) (aliasLength : Nat) :
    (f.newRoot key aliasLength).2.Sound ((f.newRoot key aliasLength).1 :: roots) := by
  have hhanded : (f.newRoot key aliasLength).2.handed ((f.newRoot key aliasLength).1 :: roots) =
      (f.newRoot key aliasLength).1 :: f.handed roots := rfl
  constructor
  case tops => exact List.forall_mem_cons.mpr ⟨⟨rfl, rfl, rfl, key, rfl⟩, h.tops⟩
  case grown =>
    intro g hg
    obtain ⟨parent, hp, hunder⟩ := h.grown g hg
    exact ⟨parent, hhanded ▸ List.mem_cons_of_mem _ hp, hunder⟩
  case ids =>
    rw [hhanded, List.map_cons, List.nodup_cons]
    refine ⟨fun hm => ?_, h.ids⟩
    obtain ⟨s, hs, he⟩ := List.mem_map.mp hm
    exact Nat.ne_of_lt (h.earlier s hs) he
  case earlier =>
    rw [hhanded]
    refine List.forall_mem_cons.mpr ⟨Nat.lt_succ_self _, fun s hs => ?_⟩
    exact Nat.lt_succ_of_lt (h.earlier s hs)
  case labels => exact h.labels

/-- A child under the label of the request is handed out, and the forest stays sound. -/
theorem Sound.child (h : f.Sound roots) (hp : parent ∈ f.handed roots) (key : Key)
    (aliasName : Option String) (arguments : Fields Argument) (isBranch : Bool) :
    (f.child parent key aliasName arguments isBranch).2.Sound roots ∧
      (f.child parent key aliasName arguments isBranch).1 ∈
        (f.child parent key aliasName arguments isBranch).2.handed roots ∧
      f.handed roots ⊆ (f.child parent key aliasName arguments isBranch).2.handed roots := by
  rw [Forest.child]
  split
  · rename_i s hs
    obtain ⟨g, hg, rfl⟩ := Option.map_eq_some_iff.mp hs
    exact ⟨h, mem_handed.mpr (.inr ⟨g, List.mem_of_find?_eq_some hg, rfl⟩), List.Subset.refl _⟩
  · rename_i hnone
    let child : Selection :=
      { node :=
          { id := f.nextId, key
            aliasName := childAlias key aliasName arguments parent.aliasLength
            arguments, isBranch }
        above := parent.node :: parent.above
        aliasLength := parent.aliasLength }
    let g : Growth := { parent := parent.id, child }
    have hhanded : ({ nextId := f.nextId + 1, growth := f.growth ++ [g] } : Forest).handed roots =
        f.handed roots ++ [child] := by
      rw [handed, handed, List.map_append, List.append_assoc]
      rfl
    have hsubset : f.handed roots ⊆
        ({ nextId := f.nextId + 1, growth := f.growth ++ [g] } : Forest).handed roots :=
      hhanded ▸ List.subset_append_left _ _
    refine ⟨?_, hhanded ▸ List.mem_append_right _ List.mem_cons_self, hsubset⟩
    constructor
    case tops => exact h.tops
    case grown =>
      refine List.forall_mem_append.mpr ⟨fun other hother => ?_, ?_⟩
      · obtain ⟨p, hp, hunder⟩ := h.grown other hother
        exact ⟨p, hsubset hp, hunder⟩
      · exact List.forall_mem_singleton.mpr ⟨parent, hsubset hp, rfl, rfl, rfl⟩
    case ids =>
      rw [hhanded, List.map_append, List.nodup_append]
      refine ⟨h.ids, List.nodup_singleton _, fun a ha b hb => ?_⟩
      obtain ⟨s, hs, rfl⟩ := List.mem_map.mp ha
      rw [List.mem_singleton.mp hb]
      exact Nat.ne_of_lt (h.earlier s hs)
    case earlier =>
      rw [hhanded]
      refine List.forall_mem_append.mpr ⟨fun s hs => Nat.lt_succ_of_lt (h.earlier s hs), ?_⟩
      exact List.forall_mem_singleton.mpr (Nat.lt_succ_self _)
    case labels =>
      rw [List.map_append, List.nodup_append]
      refine ⟨h.labels, List.nodup_singleton _, fun a ha b hb he => ?_⟩
      obtain ⟨other, hother, rfl⟩ := List.mem_map.mp ha
      obtain ⟨hid, hlabel⟩ := Prod.mk.inj (he.trans (List.mem_singleton.mp hb))
      have hmissing := List.find?_eq_none.mp (Option.map_eq_none_iff.mp hnone) other hother
      refine hmissing ?_
      rw [Bool.and_eq_true, beq_iff_eq, beq_iff_eq]
      exact ⟨hid, hlabel⟩

theorem Grown.sound (h : f.Grown roots) : f.Sound roots := by
  induction h with
  | empty =>
      exact ⟨fun _ h => absurd h List.not_mem_nil, fun _ h => absurd h List.not_mem_nil,
        List.nodup_nil, fun _ h => absurd h List.not_mem_nil, .nil⟩
  | root _ key aliasLength ih => exact ih.newRoot key aliasLength
  | child _ hp key aliasName arguments isBranch ih =>
      exact (ih.child hp key aliasName arguments isBranch).1

/-- A child can be asked for of any selection that was handed out. -/
theorem Grown.ask (h : f.Grown roots) (hp : parent ∈ f.handed roots) (key : Key)
    (aliasName : Option String) (arguments : Fields Argument) (isBranch : Bool) :
    (f.child parent key aliasName arguments isBranch).2.Grown roots ∧
      (f.child parent key aliasName arguments isBranch).1 ∈
        (f.child parent key aliasName arguments isBranch).2.handed roots ∧
      f.handed roots ⊆ (f.child parent key aliasName arguments isBranch).2.handed roots :=
  ⟨.child h hp key aliasName arguments isBranch,
    (h.sound.child hp key aliasName arguments isBranch).2⟩

end Forest

/-! ### Ways down -/

variable {f : Forest} {roots : List Selection} {s t parent : Selection}

theorem ancestry_of_above (h : s.above = parent.node :: parent.above) :
    s.ancestry = parent.ancestry ++ [s.node] := by
  rw [ancestry, h, List.reverse_cons, ancestry]

theorem rootNode_of_above (h : s.above = parent.node :: parent.above) :
    s.rootNode = parent.rootNode := by
  rw [rootNode, h, List.getLastD_cons, rootNode]

theorem ancestry_of_isRoot (h : Forest.IsRoot s) : s.ancestry = [s.node] := by
  rw [ancestry, h.above]
  rfl

theorem rootNode_of_isRoot (h : Forest.IsRoot s) : s.rootNode = s.node := by
  rw [rootNode, h.above]
  rfl

/-- Above each selection of a sound forest stands a root. -/
theorem Forest.Sound.exists_root (h : f.Sound roots) (hs : s ∈ f.handed roots) :
    ∃ root ∈ roots, ∃ nodes, s.ancestry = root.node :: nodes ∧ s.rootNode = root.node := by
  generalize hn : s.above.length = n
  induction n generalizing s with
  | zero =>
      rcases Forest.mem_handed.mp hs with hs | ⟨g, hg, rfl⟩
      · exact ⟨s, hs, [], ancestry_of_isRoot (h.tops s hs), rootNode_of_isRoot (h.tops s hs)⟩
      · obtain ⟨parent, _, hunder⟩ := h.grown g hg
        rw [hunder.above] at hn
        cases hn
  | succ n ih =>
      rcases Forest.mem_handed.mp hs with hs | ⟨g, hg, rfl⟩
      · rw [(h.tops s hs).above] at hn
        cases hn
      · obtain ⟨parent, hp, hunder⟩ := h.grown g hg
        rw [hunder.above] at hn
        obtain ⟨root, hroot, nodes, hnodes, htop⟩ := ih hp (Nat.succ.inj hn)
        refine ⟨root, hroot, nodes ++ [g.child.node], ?_, ?_⟩
        · rw [ancestry_of_above hunder.above, hnodes]
          rfl
        · rw [rootNode_of_above hunder.above, htop]

/-- In one tree the labels from the root down tell the selection. -/
theorem Forest.Sound.eq_of_labels (h : f.Sound roots) (hs : s ∈ f.handed roots)
    (ht : t ∈ f.handed roots) (hroot : s.rootNode.id = t.rootNode.id)
    (hlabels : s.ancestry.map (·.label) = t.ancestry.map (·.label)) : s = t := by
  generalize hn : s.above.length = n
  have hlength : s.above.length = t.above.length := by
    have hlength := congrArg List.length hlabels
    rw [List.length_map, List.length_map, ancestry, ancestry, List.length_reverse,
      List.length_reverse, List.length_cons, List.length_cons] at hlength
    exact Nat.succ.inj hlength
  induction n generalizing s t with
  | zero =>
      have hs0 := List.eq_nil_of_length_eq_zero hn
      have ht0 := List.eq_nil_of_length_eq_zero (hlength ▸ hn)
      rw [rootNode, hs0, rootNode, ht0] at hroot
      exact h.eq_of_id hs ht hroot
  | succ n ih =>
      rcases Forest.mem_handed.mp hs with hs | ⟨g, hg, rfl⟩
      · rw [(h.tops s hs).above] at hn
        cases hn
      rcases Forest.mem_handed.mp ht with ht | ⟨g', hg', rfl⟩
      · rw [hlength, (h.tops t ht).above] at hn
        cases hn
      obtain ⟨p, hp, hunder⟩ := h.grown g hg
      obtain ⟨p', hp', hunder'⟩ := h.grown g' hg'
      rw [ancestry_of_above hunder.above, ancestry_of_above hunder'.above, List.map_append,
        List.map_append] at hlabels
      obtain ⟨habove, hlast⟩ := List.append_inj' hlabels rfl
      rw [rootNode_of_above hunder.above, rootNode_of_above hunder'.above] at hroot
      rw [hunder.above, hunder'.above] at hlength
      rw [hunder.above] at hn
      obtain rfl := ih hp hp' hroot habove (Nat.succ.inj hn) (Nat.succ.inj hlength)
      have hsame : (g.parent, g.child.node.label) = (g'.parent, g'.child.node.label) :=
        Prod.ext (hunder.id.trans hunder'.id.symm) (List.cons.inj hlast).1
      rw [List.inj_on_of_nodup_map h.labels hg hg' hsame]

/-- A signature tells labels without dots. -/
theorem labels_of_signature (hs : ∀ n ∈ s.ancestry, '.' ∉ n.label.toList)
    (ht : ∀ n ∈ t.ancestry, '.' ∉ n.label.toList) (he : s.signature = t.signature) :
    s.ancestry.map (·.label) = t.ancestry.map (·.label) := by
  have hsegments : ∀ {x : Selection}, (∀ n ∈ x.ancestry, '.' ∉ n.label.toList) →
      Text.segments x.signature = x.ancestry.map (·.label) := by
    intro x hx
    refine Text.segments_dotted ?_ fun p hp => ?_
    · rw [ancestry, List.map_reverse, Ne, List.reverse_eq_nil_iff]
      exact List.cons_ne_nil _ _
    · obtain ⟨n, hn, rfl⟩ := List.mem_map.mp hp
      exact hx n hn
  rw [← hsegments hs, ← hsegments ht, he]

end LazyGraph.Selection
