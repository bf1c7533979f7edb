import LazyGraph.Proofs.Client.Interleaving

/-!
What concurrent calls give. The data that a call asked for always arrives before its second run, and
a value is missing from that run only where a later reply took the place of the one that had it.
-/
namespace LazyGraph

namespace Server

open Document (Head FieldTree)

variable {server : Server}

/-- The member for a field that is asked for. -/
theorem get?_membersOf {p : List String} {children : List (Head × FieldTree)}
    (hp : ∀ q ∈ children, ∃ name, q.1 = Document.plain name) {name : String} {t : FieldTree}
    (ht : (FieldTree.node children).below? name = some t) :
    Fields.get? (server.membersOf p children) name = some
      (match server.holding (p ++ [name]) with
      | .absent => .null
      | .object => .object (server.members (p ++ [name]) t)
      | .leaf v => v.json) := by
  induction children with
  | nil => cases ht
  | cons q children ih =>
      obtain ⟨⟨other, hother⟩, hrest⟩ := List.forall_mem_cons.mp hp
      obtain ⟨head, u⟩ := q
      obtain rfl : head = Document.plain other := hother
      rw [FieldTree.below?_cons, Document.text_plain] at ht
      rw [Document.plain, membersOf, Option.getD_none]
      split at ht
      · rename_i he
        cases ht
        subst he
        exact Fields.get?_insert_self _ _ _
      · rename_i hne
        rw [Fields.get?_insert_of_ne _ (Ne.symm hne)]
        exact ih hrest ht

/-- A reply goes all the way that its document asks for. -/
theorem walk?_members {schema : Schema} {type : String} {p way : List String}
    (h : server.Serves schema type p way) {t : FieldTree} (ht : t.Plain) (ha : t.Asks way) :
    ((Json.object (server.members p t)).walk? way).isSome := by
  induction way generalizing type p t with
  | nil => exact h.elim
  | cons name rest ih =>
      obtain ⟨u, hu, hrest⟩ := ha
      have hbelow := ht.below? hu
      have hget : (Json.object (server.members p t)).step? name = some
          (match server.holding (p ++ [name]) with
          | .absent => .null
          | .object => .object (server.members (p ++ [name]) u)
          | .leaf v => v.json) := by
        cases ht with
        | node hheads _ => exact get?_membersOf hheads hu
      rw [Json.walk?, hget, Option.bind_some]
      cases rest with
      | nil => rfl
      | cons next rest =>
          obtain ⟨d, _, _, _, hp, hserves⟩ := h
          rw [hp]
          exact ih hserves hbelow hrest

end Server

namespace Client

variable {server : Server} {options : Options} {schema : Schema} {c : Client}

/-- Some reply that was stored goes all the way down the trail. -/
def Replied (c : Client) (trail : List String) : Prop :=
  ∃ field rest, trail = field :: rest ∧ ∃ notice ∈ c.notices, ∃ w,
    replied? field notice = some w ∧ (w.walk? rest).isSome

/-- The last reply with the root field of the trail does not go down it. -/
def Replaced (c : Client) (trail : List String) : Prop :=
  ∃ field rest, trail = field :: rest ∧ ∃ w, c.lastReply? field = some w ∧ w.walk? rest = none

theorem Told.replied {trail : List String} (h : c.Told server trail)
    (hserves : server.Serves schema Operation.query.text [Operation.query.text] trail) :
    c.Replied trail := by
  obtain ⟨d, hasks, notice, hm, hpayload⟩ := h
  have hway := Server.walk?_members hserves hasks.plain hasks.fields
  cases trail with
  | nil => exact hserves.elim
  | cons field rest =>
      obtain ⟨y, hy⟩ := Option.isSome_iff_exists.mp hway
      obtain ⟨w, hw, hrest⟩ := Option.bind_eq_some_iff.mp hy
      refine ⟨field, rest, rfl, notice, hm, w, ?_, Option.isSome_of_eq_some hrest⟩
      rw [replied?_query hpayload, Server.data, hasks.operation]
      exact hw

/-- A trail that was replied to and is not covered was replaced. -/
theorem Truthful.replaced (h : c.Truthful server options schema) {trail : List String}
    (hr : c.Replied trail)
    (hn : ¬ c.cache.store.CoversWay (Operation.query.text :: trail)) : c.Replaced trail := by
  obtain ⟨field, rest, rfl, notice, hm, w, hw, _⟩ := hr
  have hlast : (c.lastReply? field).isSome := by
    rw [lastReply?, List.findSome?_isSome_iff]
    exact ⟨notice, List.mem_reverse.mpr hm, Option.isSome_of_eq_some hw⟩
  obtain ⟨v, hv⟩ := Option.isSome_iff_exists.mp hlast
  refine ⟨field, rest, rfl, v, hv, ?_⟩
  cases hwalk : v.walk? rest with
  | none => rfl
  | some y =>
      exact absurd ⟨field, rest, v, rfl, h.covers field v hv, Option.isSome_of_eq_some hwalk⟩ hn

namespace World

variable {w : World}

/-- A call that ends with its first run has missed nothing. A call that waits gets all that it asked
for before its second run. That gives for each trail what the server holds, or null where a later
reply took the place of the one that had it, and it misses nothing where there is no such trail. -/
theorem calls_complete (hdistinct : server.Distinct options.cache.identity)
    (hresolver : ∀ n, options.cache.normalizer = some n → n.resolver = none)
    (hage : options.cache.maxAge = none) (hnamed : schema.Named)
    (h : Reachable server options schema w) :
    (∀ now id key trails value, (∀ trail ∈ trails,
        server.Serves schema Operation.query.text [Operation.query.text] trail) →
      (w.client.resolve now id (trailClosure trails) .standard key).1 = .ended (.ok value) →
      value = .array (trails.map fun trail => server.leafAt (Operation.query.text :: trail)) ∧
      (w.client.perform now w.client.context (trailClosure trails)).2.1.freshness.missing = false) ∧
    ∀ trails call, (trails, call) ∈ w.calls → ∃ ticket, call.awaited = .ticket ticket ∧
      (w.client.schedule.outcome? ticket = some (.ok ()) →
        (∀ trail ∈ trails, w.client.Replied trail) ∧
        ∀ now, ∃ values context d,
          w.client.perform now call.context.reset call.closure = (.ok (.array values), context, d) ∧
          w.client.conclude now call (.ok ()) = (.ok (.array values), d) ∧
          List.Forall₂ (fun trail v => v = server.leafAt (Operation.query.text :: trail) ∨
            (v = .null ∧ w.client.Replaced trail)) trails values ∧
          ((∀ trail ∈ trails, ¬ w.client.Replaced trail) →
            context.freshness.missing = false ∧
            values = trails.map fun trail => server.leafAt (Operation.query.text :: trail))) := by
  have hsound := h.sound hdistinct hresolver hage hnamed
  refine ⟨fun now id key trails value hserves hended => ?_, fun trails call hcall => ?_⟩
  · obtain ⟨vs, context, d, hperform, hran, hcases⟩ :=
      hsound.truthful.resolve_cases hdistinct hage hnamed hsound.orderly.plain now id key hserves
    rw [hperform]
    obtain ⟨e, he⟩ | ⟨hmissing, he | he⟩ | he := hcases
    all_goals rw [he] at hended; cases hended
    · exact ⟨congrArg _ (hran.right hmissing), hmissing⟩
    · exact ⟨congrArg _ (hran.right hmissing), hmissing⟩
  · have hwaits := hsound.waits _ hcall
    obtain ⟨ticket, hawaited, hdue⟩ := hwaits.due
    refine ⟨ticket, hawaited, fun hsettled => ?_⟩
    have hreplied : ∀ trail ∈ trails, w.client.Replied trail := by
      intro trail ht
      obtain ⟨group, hgroup, hdue⟩ := hdue trail ht
      have hok := Schedule.lookup_of_outcome? hsettled group hgroup
      exact (hdue.told_of_settled hok).replied (hwaits.serves trail ht)
    refine ⟨hreplied, fun now => ?_⟩
    obtain ⟨values, context, d, hconclude, hperform, hran⟩ := hsound.truthful.conclude hdistinct hage
      hnamed hsound.orderly.plain now hwaits.roots hwaits.serves hwaits.reads hawaited
    refine ⟨values, context, d, hperform, hconclude, ?_, fun hkept => ?_⟩
    · have hgiven := (List.forall₂_and_left trails values).mpr ⟨hreplied, hran.given⟩
      refine hgiven.imp fun trail v ⟨hr, hv⟩ => ?_
      exact hv.imp_right (And.imp_right (hsound.truthful.replaced hr))
    · have hmissing : context.freshness.missing = false := hran.found fun trail ht => by
        by_contra hn
        exact hkept trail ht (hsound.truthful.replaced (hreplied trail ht) hn)
      exact ⟨hmissing, hran.right hmissing⟩

/-! ### Two calls for the fields of one user -/

/-- What there is at each position of a server with one user. -/
def userTable : List (List String × Holding) :=
  [(["query"], .object), (["query", "user"], .object),
    (["query", "user", "__typename"], .leaf (.string "User")),
    (["query", "user", "id"], .leaf (.string "1")),
    (["query", "user", "name"], .leaf (.string "Ada")),
    (["query", "user", "email"], .leaf (.string "ada@x"))]

def userServer : Server where
  holding p := (userTable.lookup p).getD .absent
  reserved p := by
    have hnone : ∀ q ∈ userTable, q.1.getLast? ≠ some referenceKey := by decide
    cases hl : userTable.lookup (p ++ [referenceKey]) with
    | none => rfl
    | some v => exact absurd List.getLast?_concat (hnone _ (Schedule.mem_of_lookup hl))

def userSchema : Schema where
  types := [("User", [("email", { type := "String" }), ("name", { type := "String" })]),
    ("query", [("user", { type := "User" })])]

theorem userSchema_named : userSchema.Named := Schema.named_of_forall (by decide)

theorem userServer_distinct : userServer.Distinct (Cache.Options.identity {}) := by
  have hfields : ∀ q ∈ userTable, ∀ f ∈ Normalizer.defaultIdentityFields,
      q.1.getLast? = some f → q.1.dropLast = ["query", "user"] := by decide
  have huser : ∀ id p, userServer.Carries (Cache.Options.identity {}) id p →
      p = ["query", "user"] := by
    intro id p hp
    have hp : userServer.Carries (Normalizer.identityByFields Normalizer.defaultIdentityFields) id p :=
      hp
    obtain ⟨f, hf, l, hl⟩ := hp.leaf
    cases hlook : userTable.lookup (p ++ [f]) with
    | none =>
        have habsent : userServer.holding (p ++ [f]) = .absent := by
          simp only [userServer, hlook, Option.getD_none]
        cases habsent.symm.trans hl
    | some v =>
        have hlast := hfields _ (Schedule.mem_of_lookup hlook) f hf List.getLast?_concat
        rwa [List.dropLast_concat] at hlast
  intro id p q hp hq
  rw [huser id p hp, huser id q hq]

theorem serves_name : userServer.Serves userSchema "query" ["query"] ["user", "name"] :=
  ⟨{ type := "User" }, rfl, by decide, by decide, rfl, { type := "String" }, .string "Ada", rfl,
    by decide, by decide, rfl⟩

theorem serves_email : userServer.Serves userSchema "query" ["query"] ["user", "email"] :=
  ⟨{ type := "User" }, rfl, by decide, by decide, rfl, { type := "String" }, .string "ada@x", rfl,
    by decide, by decide, rfl⟩

def nameAsked : World :=
  World.resolve { client := .new userSchema false {} } 0 1 [["user", "name"]] {}

/-- The second call is made once the window of the first one has closed. -/
def emailAsked : World := nameAsked.close.resolve 0 2 [["user", "email"]] {}

/-- The reply to the second call is stored after the one to the first call. -/
def emailStored : World := (emailAsked.fetch userServer 0 1 1).close.fetch userServer 0 2 2

theorem emailStored_reachable : Reachable userServer {} userSchema emailStored := by
  have hname : Reachable userServer {} userSchema nameAsked :=
    (Reachable.new false).step (.resolve 0 1 {} (List.forall_mem_singleton.mpr serves_name))
  have hclosed := hname.close (by decide +kernel)
  have hemail : Reachable userServer {} userSchema emailAsked :=
    hclosed.step (.resolve 0 2 {} (List.forall_mem_singleton.mpr serves_email))
  have hstored := hemail.fetch 0 1 1
  exact (hstored.close (by decide +kernel)).fetch 0 2 2

/-- Whether all that a call waits for has ended well. -/
def isServed (w : World) (call : Call) : Bool :=
  match call.awaited with
  | .ticket ticket =>
    match w.client.schedule.outcome? ticket with
    | some (.ok ()) => true
    | _ => false
  | .own => false

theorem ticket_of_isServed {call : Call} (h : w.isServed call = true) :
    ∃ ticket, call.awaited = .ticket ticket ∧
      w.client.schedule.outcome? ticket = some (.ok ()) := by
  rw [isServed] at h
  split at h
  · split at h
    · exact ⟨_, ‹_›, ‹_›⟩
    · cases h
  · cases h

/-- Whether a call has ended with a value as it was made. -/
def isAnswered : Opening → Bool
  | .ended (.ok _) => true
  | _ => false

theorem value_of_isAnswered {o : Opening} (h : isAnswered o = true) :
    ∃ value, o = .ended (.ok value) := by
  unfold isAnswered at h
  split at h
  · exact ⟨_, rfl⟩
  · cases h

/-- Whether a call has ended with a list of one value, which is not there. -/
def isNullAlone : Except ClientError Json → Bool
  | .ok (.array [.null]) => true
  | _ => false

theorem eq_of_isNullAlone {r : Except ClientError Json} (h : isNullAlone r = true) :
    r = .ok (.array [.null]) := by
  unfold isNullAlone at h
  split at h
  · rfl
  · cases h

theorem email_not_replaced : ¬ emailStored.client.Replaced ["user", "email"] := by
  rintro ⟨field, rest, he, w, hw, hnone⟩
  cases he
  have hgoes : (emailStored.client.lastReply? "user").all
      (fun w => (w.walk? ["email"]).isSome) = true := by decide +kernel
  rw [hw, Option.all_some, hnone] at hgoes
  cases hgoes

/-- The second call gets the address. So does a third one, which ends with its first run. -/
theorem calls_complete_email :
    (emailStored.client.resolve 0 3 (trailClosure [["user", "email"]]) .standard {}).1 =
      .ended (.ok (.array [.string "ada@x"])) ∧
    ∃ call ticket, emailStored.calls[1]? = some ([["user", "email"]], call) ∧
      call.awaited = .ticket ticket ∧
      emailStored.client.schedule.outcome? ticket = some (.ok ()) ∧
      (emailStored.client.conclude 0 call (.ok ())).1 = .ok (.array [.string "ada@x"]) := by
  obtain ⟨hended, hwaits⟩ := calls_complete userServer_distinct
    (fun n hn => by cases hn; rfl) rfl userSchema_named emailStored_reachable
  have hserves := List.forall_mem_singleton.mpr serves_email
  constructor
  · obtain ⟨value, he⟩ := value_of_isAnswered (o := (emailStored.client.resolve 0 3
      (trailClosure [["user", "email"]]) .standard {}).1) (by decide +kernel)
    rw [he, (hended 0 3 {} _ value hserves he).1]
    rfl
  · have hfirst : emailStored.calls[1]?.map (·.1) = some [["user", "email"]] := by decide +kernel
    obtain ⟨⟨trails, call⟩, hcall, rfl⟩ := Option.map_eq_some_iff.mp hfirst
    have hserved : emailStored.calls[1]?.all (emailStored.isServed ·.2) = true := by decide +kernel
    rw [hcall] at hserved
    obtain ⟨ticket, hawaited, hsettled⟩ := ticket_of_isServed hserved
    obtain ⟨ticket', hawaited', hcomplete⟩ := hwaits _ call (List.mem_of_getElem? hcall)
    obtain rfl : ticket' = ticket := by
      cases hawaited.symm.trans hawaited'
      rfl
    obtain ⟨_, hsecond⟩ := hcomplete hsettled
    obtain ⟨values, context, d, _, hconclude, _, hkept⟩ := hsecond 0
    obtain ⟨_, rfl⟩ := hkept (List.forall_mem_singleton.mpr email_not_replaced)
    refine ⟨call, ticket', hcall, hawaited', hsettled, ?_⟩
    rw [hconclude]
    rfl

/-- The first call gets null for the name, without an error: the reply to the second one has taken
the place of the user that had it. -/
theorem name_replaced :
    Reachable userServer {} userSchema emailStored ∧
    userServer.Distinct (Cache.Options.identity {}) ∧ userSchema.Named ∧
    userServer.Serves userSchema "query" ["query"] ["user", "name"] ∧
    userServer.leafAt ["query", "user", "name"] = .string "Ada" ∧
    ∃ call ticket, emailStored.calls[0]? = some ([["user", "name"]], call) ∧
      call.awaited = .ticket ticket ∧
      emailStored.client.schedule.outcome? ticket = some (.ok ()) ∧
      (emailStored.client.conclude 0 call (.ok ())).1 = .ok (.array [.null]) ∧
      (emailStored.client.perform 0 call.context.reset call.closure).2.1.freshness.missing = true := by
  refine ⟨emailStored_reachable, userServer_distinct, userSchema_named, serves_name, rfl, ?_⟩
  have hfirst : emailStored.calls[0]?.map (·.1) = some [["user", "name"]] := by decide +kernel
  obtain ⟨⟨trails, call⟩, hcall, rfl⟩ := Option.map_eq_some_iff.mp hfirst
  have hchecked : emailStored.calls[0]?.all (fun q => emailStored.isServed q.2 &&
      (emailStored.client.perform 0 q.2.context.reset q.2.closure).2.1.freshness.missing &&
      isNullAlone (emailStored.client.conclude 0 q.2 (.ok ())).1) = true := by decide +kernel
  rw [hcall] at hchecked
  simp only [Option.all_some, Bool.and_eq_true] at hchecked
  obtain ⟨⟨hserved, hmissing⟩, hvalue⟩ := hchecked
  obtain ⟨ticket, hawaited, hsettled⟩ := ticket_of_isServed hserved
  exact ⟨call, ticket, hcall, hawaited, hsettled, eq_of_isNullAlone hvalue, hmissing⟩

end World
end Client
end LazyGraph
