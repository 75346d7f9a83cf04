import P2PForge.Lifecycle

/-! The server around a host, a node and services.
`Start` acquires them one after the other and each of the functions it is made of releases what
that function has acquired itself. `Stop` releases everything, whatever there is. -/
namespace P2PForge

open Acting Lifecycle

/-- The configuration, as far as starting and stopping reads it. -/
structure Config where
  port : ℤ
  enableRelay : Bool
  enableRelayService : Bool
  enableAutoRelay : Bool
  enableHolePunching : Bool
  bootstrapPeers : List String
  enablePubSub : Bool
  identityFile : String
  dataDirectory : String
  maxRequestsPerWindow : ℤ
  shutdownTimeout : Duration

namespace Config

def defaultConfig : Config :=
  ⟨0,true,false,false,false,[],true,"","./data",100,5*Duration.second⟩

def validate (c : Config) : Option GoErr :=
  if c.port < 0 ∨ c.port > 65535 then some (.other ("invalid port: " ++ toString c.port))
  else if c.maxRequestsPerWindow ≤ 0 then
    some (.other "max_requests_per_window must be positive")
  else if c.enableAutoRelay ∧ ¬ c.enableRelay then
    some (.other "enable_auto_relay requires enable_relay")
  else if c.enableHolePunching ∧ ¬ c.enableRelay then
    some (.other "enable_hole_punching requires enable_relay")
  else if c.enableRelayService ∧ ¬ c.enableRelay then
    some (.other "enable_relay_service requires enable_relay")
  else none

def identityPath (c : Config) : String :=
  if c.identityFile ≠ "" then c.identityFile else c.dataDirectory ++ "/peer_identity.key"

end Config

/-- A server: the protocols it has handlers for, its services in the order they were registered
in, whether it has a private key and callbacks for connections, its host and its node, each by
its number, and the number of hosts it has made. -/
structure Server where
  handlers : List String
  services : List Service
  identity : Bool
  hooked : Bool
  host : Option ℕ
  node : Option ℕ
  hosts : ℕ

/-- What came of a call of the server: it returned, or it dereferenced a nil host. -/
inductive Outcome
  | returned (err : Option GoErr)
  | nilHost

namespace Server

variable (o : Outside)

def create (cfg : Config) (h : ℕ) : Acting Call GoErr (Option GoErr) :=
  -- the error of `connectionLimitOptions` is returned as it is
  checking (perform o.answer (.connectionLimits h)) (fun e => return some e) <|
  checking (perform o.answer (.createHost h))
    (fun e => return some (.wrap "create host: " e))
    (if cfg.enableRelay ∧ cfg.enableRelayService then
      checking (perform o.answer (.newRelay h))
        (fun e => do
          performAll o.answer [.closeHost h]
          return some (.wrap "create relay service: " e))
        (return none)
    else return none)

def newNode (cfg : Config) (h : ℕ) : Acting Call GoErr (Option GoErr) :=
  checking (perform o.answer (.newDHT h))
    (fun e => do
      performAll o.answer [.cancel h]
      return some (.wrap "create dht: " e)) <|
  checking (perform o.answer (.bootstrap h))
    (fun e => do
      performAll o.answer [.closeDHT h,.cancel h]
      return some (.wrap "bootstrap dht: " e)) <| do
  -- a peer that cannot be reached is only logged
  performAll o.answer (cfg.bootstrapPeers.map (.connect h))
  if cfg.enablePubSub then
    checking (perform o.answer (.newGossipSub h))
      (fun e => do
        performAll o.answer [.closeDHT h,.cancel h]
        return some (.wrap "create gossipsub: " e))
      (return none)
  else return none

/-- The calls of `Node.Close`, none of which depends on another one's success. -/
def closeCalls (h : ℕ) : List Call :=
  [.cancel h,.cancelSubs h,.closeTopics h,.closeDHT h,.closeHost h]

def loadIdentity (cfg : Config) (s : Server) : Acting Call GoErr (Option GoErr) :=
  if s.identity then return none else perform o.answer (.loadIdentity cfg.identityPath)

/-- `Start`: the error it returns and the server it leaves. -/
def start (cfg : Config) (s : Server) : Acting Call GoErr (Option GoErr × Server) :=
  checking (return cfg.validate)
    (fun e => return (some (.wrap "invalid config: " e),s)) <|
  checking (loadIdentity o cfg s)
    (fun e => return (some (.wrap "load identity: " e),s)) <|
  checking (create o cfg s.hosts)
    (fun e => return (some (.wrap "create host: " e),
      { s with identity := true,hosts := s.hosts + 1 })) <| do
  performAll o.answer (if s.hooked then [.notify s.hosts] else [])
  checking (newNode o cfg s.hosts)
    (fun e => do
      performAll o.answer [.closeHost s.hosts]
      return (some (.wrap "create node: " e),
        { s with identity := true,hosts := s.hosts + 1,host := some s.hosts })) <| do
  performAll o.answer (s.handlers.map (.setStreamHandler s.hosts))
  let started : Server := { s with
    identity := true
    hosts := s.hosts + 1
    host := some s.hosts
    node := some s.hosts }
  checking (startAll o s.services)
    (fun e => do
      performAll o.answer (closeCalls s.hosts)
      return (some (.wrap "start services: " e),started))
    (return (none,started))

/-- `Stop`. A handler to be removed from a host that is nil is a nil dereference; errors are
only logged, and the server stays as it is. -/
def stop (cfg : Config) (s : Server) : Acting Call GoErr Outcome := do
  match s.host,s.handlers with
  | none,_ :: _ => return .nilHost
  | host,handlers =>
    performAll o.answer (host.toList.flatMap fun h => handlers.map (.removeStreamHandler h))
    performAll o.answer (if cfg.shutdownTimeout > 0 then [.wait] else [])
    let _ ← stopAll o s.services
    performAll o.answer (s.node.toList.flatMap closeCalls)
    return .returned none

end Server

namespace Call

def lifecycle : Call → Bool
  | .start _ | .stop _ => true
  | _ => false

def closes : Call → Bool
  | .cancel _ | .closeDHT _ | .closeHost _ => true
  | _ => false

/-- The calls that neither acquire nor release a host, a node or a service. -/
def plain : Call → Bool
  | .createHost _ | .newDHT _ => false
  | c => !c.lifecycle && !c.closes

end Call

namespace Log

def calls (l : Log) (c : Call) : ℕ := (l.map Entry.call).count c

def made (l : Log) (c : Call) : ℕ := l.count ⟨c,none⟩

def lifecycle (l : Log) : Log := l.filter (·.call.lifecycle)

theorem calls_eq_zero {l : Log} {c : Call} (h : ∀ e ∈ l, e.call ≠ c) : calls l c = 0 := by
  rw [calls,List.count_eq_zero,List.mem_map]
  rintro ⟨e,he,rfl⟩
  exact h e he rfl

theorem made_eq_zero {l : Log} {c : Call} (h : ∀ e ∈ l, e.call ≠ c) : made l c = 0 := by
  rw [made,List.count_eq_zero]
  exact fun he => h _ he rfl

theorem lifecycle_eq_nil {l : Log} (h : ∀ e ∈ l, e.call.lifecycle = false) : lifecycle l = [] := by
  rw [lifecycle,List.filter_eq_nil_iff]
  exact fun e he => by simp [h e he]

theorem map_call_lifecycle (l : Log) :
    (lifecycle l).map Entry.call = (l.map Entry.call).filter Call.lifecycle := by
  rw [lifecycle,List.filter_map]
  rfl

theorem tally_of_lifecycle {l : Log} (h : ∀ e ∈ l, e.call.lifecycle = true) (n : ℕ) :
    made l (.createHost n) = 0 ∧ made l (.newDHT n) = 0 ∧ calls l (.newDHT n) = 0 := by
  have hne : ∀ {c : Call}, c.lifecycle = false → ∀ e ∈ l, e.call ≠ c := by
    rintro c hc e he rfl
    rw [h e he] at hc
    cases hc
  exact ⟨made_eq_zero (hne rfl),made_eq_zero (hne rfl),calls_eq_zero (hne rfl)⟩

theorem unclosed_of_lifecycle {l : Log} (h : ∀ e ∈ l, e.call.lifecycle = true) :
    ∀ e ∈ l, e.call.closes = false := by
  intro e he
  have hlife := h e he
  cases hc : e.call <;> simp [hc,Call.lifecycle,Call.closes] at hlife ⊢

theorem tally_of_unclosed {l : Log} (h : ∀ e ∈ l, e.call.closes = false) (n : ℕ) :
    calls l (.closeHost n) = 0 ∧ calls l (.closeDHT n) = 0 ∧ calls l (.cancel n) = 0 := by
  have hne : ∀ {c : Call}, c.closes = true → ∀ e ∈ l, e.call ≠ c := by
    rintro c hc e he rfl
    rw [h e he] at hc
    cases hc
  exact ⟨calls_eq_zero (hne rfl),calls_eq_zero (hne rfl),calls_eq_zero (hne rfl)⟩

/-- Nothing on the log acquires or releases a host, a node or a service. -/
def Plain (l : Log) : Prop := ∀ e ∈ l, e.call.plain = true

@[simp] theorem calls_nil (c : Call) : calls [] c = 0 := rfl
@[simp] theorem made_nil (c : Call) : made [] c = 0 := rfl
@[simp] theorem lifecycle_nil : lifecycle [] = [] := rfl

@[simp] theorem calls_cons (e : Entry Call GoErr) (l : Log) (c : Call) :
    calls (e :: l) c = calls l c + if e.call = c then 1 else 0 := by
  simp [calls,List.count_cons]

@[simp] theorem made_cons (e : Entry Call GoErr) (l : Log) (c : Call) :
    made (e :: l) c = made l c + if e = ⟨c,none⟩ then 1 else 0 := by
  simp [made,List.count_cons]

@[simp] theorem lifecycle_cons (e : Entry Call GoErr) (l : Log) :
    lifecycle (e :: l) = if e.call.lifecycle then e :: lifecycle l else lifecycle l := by
  simp [lifecycle,List.filter_cons]

@[simp] theorem calls_append (l l' : Log) (c : Call) :
    calls (l ++ l') c = calls l c + calls l' c := by
  simp [calls]

@[simp] theorem made_append (l l' : Log) (c : Call) : made (l ++ l') c = made l c + made l' c := by
  simp [made]

@[simp] theorem lifecycle_append (l l' : Log) :
    lifecycle (l ++ l') = lifecycle l ++ lifecycle l' := by
  simp [lifecycle]

theorem plain_singleton {c : Call} (h : c.plain = true) (err : Option GoErr) : Plain [⟨c,err⟩] := by
  intro e he
  obtain rfl := List.mem_singleton.mp he
  exact h

theorem plain_of_calls {l : Log} {cs : List Call} (h : l.map Entry.call = cs)
    (hcs : ∀ c ∈ cs, c.plain = true) : Plain l := by
  intro e he
  exact hcs _ (h ▸ List.mem_map_of_mem he)

namespace Plain

variable {l l' : Log}

theorem append (h : Plain l) (h' : Plain l') : Plain (l ++ l') :=
  fun e he => (List.mem_append.mp he).elim (h e) (h' e)

theorem call_ne (h : Plain l) {c : Call} (hc : c.plain = false) : ∀ e ∈ l, e.call ≠ c := by
  rintro e he rfl
  rw [h e he] at hc
  cases hc

theorem not_lifecycle (h : Plain l) : ∀ e ∈ l, e.call.lifecycle = false := by
  intro e he
  have hplain := h e he
  cases hc : e.call <;> simp [hc,Call.plain,Call.lifecycle] at hplain ⊢

theorem not_closes (h : Plain l) : ∀ e ∈ l, e.call.closes = false := by
  intro e he
  have hplain := h e he
  cases hc : e.call <;> simp [hc,Call.plain,Call.lifecycle,Call.closes] at hplain ⊢

theorem lifecycle (h : Plain l) : Log.lifecycle l = [] := lifecycle_eq_nil h.not_lifecycle

theorem tally (h : Plain l) (n : ℕ) :
    Log.made l (.createHost n) = 0 ∧ Log.calls l (.closeHost n) = 0 ∧
      Log.made l (.newDHT n) = 0 ∧ Log.calls l (.newDHT n) = 0 ∧
      Log.calls l (.closeDHT n) = 0 ∧ Log.calls l (.cancel n) = 0 :=
  ⟨made_eq_zero (h.call_ne rfl),calls_eq_zero (h.call_ne rfl),made_eq_zero (h.call_ne rfl),
    calls_eq_zero (h.call_ne rfl),calls_eq_zero (h.call_ne rfl),calls_eq_zero (h.call_ne rfl)⟩

end Plain
end Log

namespace Server

open Log

variable (o : Outside)

theorem adds_create (cfg : Config) (h : ℕ) :
    Adds (create o cfg h) fun err l =>
      (err = none ∧ ∃ l', l = ⟨.connectionLimits h,none⟩ :: ⟨.createHost h,none⟩ :: l' ∧ Plain l') ∨
      (err ≠ none ∧ ((∃ e, l = [⟨.connectionLimits h,some e⟩]) ∨
        (∃ e, l = [⟨.connectionLimits h,none⟩,⟨.createHost h,some e⟩]) ∨
        ∃ e e', l = [⟨.connectionLimits h,none⟩,⟨.createHost h,none⟩,⟨.newRelay h,some e⟩,
          ⟨.closeHost h,e'⟩])) := by
  refine (adds_perform _).checking ?_ ?_
  · rintro e l rfl
    exact adds_pure (.inr ⟨nofun,.inl ⟨e,rfl⟩⟩)
  rintro l rfl
  refine (adds_perform _).checking ?_ ?_
  · rintro e l rfl
    exact adds_pure (.inr ⟨nofun,.inr (.inl ⟨e,rfl⟩)⟩)
  · rintro l rfl
    split_ifs
    · refine (adds_perform _).checking ?_ ?_
      · rintro e l rfl
        refine (adds_performAll _).bind fun _ l hl => adds_pure (.inr ⟨nofun,.inr (.inr ?_)⟩)
        obtain ⟨⟨c,e'⟩,rfl,rfl⟩ : ∃ x, l = [x] ∧ x.call = .closeHost h := by simpa using hl
        exact ⟨e,e',rfl⟩
      · rintro l rfl
        exact adds_pure (.inl ⟨rfl,_,rfl,plain_singleton rfl _⟩)
    · exact adds_pure (.inl ⟨rfl,[],rfl,nofun⟩)

/-- What making a node adds to the log: after an error the DHT is closed if there was one, and
the context is cancelled. -/
theorem adds_newNode (cfg : Config) (h : ℕ) :
    Adds (newNode o cfg h) fun err l =>
      (err = none ∧ ∃ l', l = ⟨.newDHT h,none⟩ :: l' ∧ Plain l') ∨
      (err ≠ none ∧ ((∃ e e', l = [⟨.newDHT h,some e⟩,⟨.cancel h,e'⟩]) ∨
        ∃ l' e e', l = ⟨.newDHT h,none⟩ :: l' ++ [⟨.closeDHT h,e⟩,⟨.cancel h,e'⟩] ∧ Plain l')) := by
  have hpair : ∀ {l : Log}, l.map Entry.call = [.closeDHT h,.cancel h] →
      ∃ e e', l = [⟨.closeDHT h,e⟩,⟨.cancel h,e'⟩] := by
    intro l hl
    obtain ⟨⟨c,e⟩,⟨c',e'⟩,rfl,rfl,rfl⟩ :
        ∃ x y, l = [x,y] ∧ x.call = .closeDHT h ∧ y.call = .cancel h := by
      simpa [List.map_eq_cons_iff] using hl
    exact ⟨e,e',rfl⟩
  refine (adds_perform _).checking ?_ ?_
  · rintro e l rfl
    refine (adds_performAll _).bind fun _ l hl => adds_pure (.inr ⟨nofun,.inl ?_⟩)
    obtain ⟨⟨c,e'⟩,rfl,rfl⟩ : ∃ x, l = [x] ∧ x.call = .cancel h := by simpa using hl
    exact ⟨e,e',rfl⟩
  · rintro l rfl
    refine (adds_perform _).checking ?_ ?_
    · rintro e l rfl
      refine (adds_performAll _).bind fun _ l hl => adds_pure (.inr ⟨nofun,.inr ?_⟩)
      obtain ⟨e₁,e₂,rfl⟩ := hpair hl
      exact ⟨[⟨.bootstrap h,some e⟩],e₁,e₂,rfl,plain_singleton rfl _⟩
    · rintro l rfl
      refine (adds_performAll _).bind fun _ l hl => ?_
      have hpeers : Plain l := plain_of_calls hl (by simp [Call.plain,Call.lifecycle,Call.closes])
      have hplain : Plain ([⟨.bootstrap h,none⟩] ++ l) :=
        Plain.append (plain_singleton rfl _) hpeers
      split_ifs
      · refine (adds_perform _).checking ?_ ?_
        · rintro e l' rfl
          refine (adds_performAll _).bind fun _ l' hl' => adds_pure (.inr ⟨nofun,.inr ?_⟩)
          obtain ⟨e₁,e₂,rfl⟩ := hpair hl'
          refine ⟨[⟨.bootstrap h,none⟩] ++ l ++ [⟨.newGossipSub h,some e⟩],e₁,e₂,by simp,?_⟩
          exact hplain.append (plain_singleton rfl _)
        · rintro l' rfl
          exact adds_pure (.inl ⟨rfl,[⟨.bootstrap h,none⟩] ++ l ++ [⟨.newGossipSub h,none⟩],by simp,
            hplain.append (plain_singleton rfl _)⟩)
      · exact adds_pure (.inl ⟨rfl,[⟨.bootstrap h,none⟩] ++ l,by simp,hplain⟩)

/-- What `Start` acquires and releases, as the entries it adds to the log: if it returns an
error all of it is released, and if it returns none all of it is kept. -/
structure AllOrNothing (h : ℕ) (svcs : List Service) (err : Option GoErr) (l : Log) : Prop where
  once : made l (.createHost h) ≤ 1 ∧ made l (.newDHT h) ≤ 1
  /-- The host, if it was made, is closed once. -/
  host : err ≠ none → calls l (.closeHost h) = made l (.createHost h)
  /-- The DHT, if it was made, is closed once, and the node context is cancelled if the node got
  as far as that. -/
  dht : err ≠ none → calls l (.closeDHT h) = made l (.newDHT h) ∧
    calls l (.cancel h) = calls l (.newDHT h)
  /-- No service is called, or those before the one that fails are started, and then stopped in
  the opposite order. -/
  services : err ≠ none →
    (lifecycle l = [] ∧ ∀ e, err ≠ some (.wrap "start services: " e)) ∨
      ∃ e, err = some (.wrap "start services: " e) ∧ StartsInOrder o [] svcs (some e) (lifecycle l)
  /-- Services are stopped before anything of the node or the host is closed. -/
  order : ∃ pre post, l = pre ++ post ∧ (∀ e ∈ pre, e.call.closes = false) ∧
    ∀ e ∈ post, e.call.lifecycle = false
  kept : err = none → made l (.createHost h) = 1 ∧ made l (.newDHT h) = 1 ∧
    lifecycle l = svcs.map startedEntry ∧ ∀ e ∈ l, e.call.closes = false

theorem AllOrNothing.early {h : ℕ} {svcs : List Service} {text : String} {cause : GoErr} {l : Log}
    (htext : text ≠ "start services: ") (hlife : lifecycle l = [])
    (hhost : made l (.createHost h) ≤ 1 ∧ calls l (.closeHost h) = made l (.createHost h))
    (hdht : made l (.newDHT h) ≤ 1 ∧ calls l (.closeDHT h) = made l (.newDHT h) ∧
      calls l (.cancel h) = calls l (.newDHT h)) :
    AllOrNothing o h svcs (some (.wrap text cause)) l := by
  refine ⟨⟨hhost.1,hdht.1⟩,fun _ => hhost.2,fun _ => hdht.2,fun _ => .inl ⟨hlife,?_⟩,
    ⟨[],l,rfl,nofun,?_⟩,nofun⟩
  · rintro e ⟨⟩
    exact htext rfl
  · simpa [lifecycle,List.filter_eq_nil_iff] using hlife

theorem adds_loadIdentity (cfg : Config) (s : Server) :
    Adds (loadIdentity o cfg s) fun _ l => Plain l := by
  unfold loadIdentity
  split_ifs
  · exact adds_pure nofun
  · refine (adds_perform _).mono ?_
    rintro err _ rfl
    exact plain_singleton rfl err

structure Acquired (h : ℕ) (l : Log) : Prop where
  host : made l (.createHost h) = 1
  dht : made l (.newDHT h) = 1 ∧ calls l (.newDHT h) = 1
  lifecycle : Log.lifecycle l = []
  unclosed : ∀ e ∈ l, e.call.closes = false

theorem lifecycle_startsInOrder {started svcs : List Service} {err : Option GoErr} {l : Log}
    (h : StartsInOrder o started svcs err l) : ∀ e ∈ l, e.call.lifecycle = true := by
  cases h with
  | all =>
    intro e he
    obtain ⟨svc,_,rfl⟩ := List.mem_map.mp he
    rfl
  | upTo pre svc post e' stops hstops =>
    intro e he
    rcases List.mem_append.mp he with hpre | hrest
    · obtain ⟨svc,_,rfl⟩ := List.mem_map.mp hpre
      rfl
    · rcases List.mem_cons.mp hrest with rfl | hstop
      · rfl
      · have hcall : e.call ∈ (pre.reverse ++ started).map Call.stop :=
          hstops ▸ List.mem_map_of_mem hstop
        obtain ⟨svc,_,hsvc⟩ := List.mem_map.mp hcall
        rw [← hsvc]
        rfl

theorem lifecycle_closeCalls (h : ℕ) : ∀ c ∈ closeCalls h, c.lifecycle = false := by
  intro c hc
  simp only [closeCalls,List.mem_cons,List.not_mem_nil,or_false] at hc
  rcases hc with rfl | rfl | rfl | rfl | rfl <;> rfl

theorem tally_closeCalls {h : ℕ} {l : Log} (hl : l.map Entry.call = closeCalls h) :
    made l (.createHost h) = 0 ∧ made l (.newDHT h) = 0 ∧ calls l (.newDHT h) = 0 ∧
      calls l (.closeHost h) = 1 ∧ calls l (.closeDHT h) = 1 ∧ calls l (.cancel h) = 1 ∧
      ∀ e ∈ l, e.call.lifecycle = false := by
  have hmem : ∀ e ∈ l, e.call ∈ closeCalls h := fun e he => hl ▸ List.mem_map_of_mem he
  have hmade : ∀ {c : Call}, c ∉ closeCalls h → made l c = 0 :=
    fun hc => made_eq_zero fun e he heq => hc (heq ▸ hmem e he)
  refine ⟨hmade ?_,hmade ?_,?_,?_,?_,?_,fun e he => lifecycle_closeCalls h _ (hmem e he)⟩ <;>
    simp [calls,hl,closeCalls]

theorem adds_startServices {h : ℕ} {acq : Log} (hacq : Acquired h acq) (svcs : List Service)
    (started : Server) :
    Adds (checking (startAll o svcs)
      (fun e => do
        performAll o.answer (closeCalls h)
        return (some (.wrap "start services: " e),started))
      (return (none,started))) fun out l => AllOrNothing o h svcs out.1 (acq ++ l) := by
  have hopen := tally_of_unclosed hacq.unclosed h
  refine (adds_startFrom o [] svcs).checking ?_ ?_
  · intro e l hl
    refine (adds_performAll _).bind fun _ lclose hlclose => adds_pure ?_
    have hcalls := lifecycle_startsInOrder o hl
    have hsvc := tally_of_lifecycle hcalls h
    have hunclosed := unclosed_of_lifecycle hcalls
    have hsvcOpen := tally_of_unclosed hunclosed h
    have hlife : lifecycle l = l := List.filter_eq_self.mpr hcalls
    obtain ⟨hhost,hdht,hnew,hcloseHost,hcloseDHT,hcancel,hquiet⟩ := tally_closeCalls hlclose
    rw [List.append_nil]
    refine ⟨?_,fun _ => ?_,fun _ => ?_,fun _ => .inr ⟨e,rfl,?_⟩,
      ⟨acq ++ l,lclose,by simp,?_,hquiet⟩,nofun⟩
    · simp [hacq.host,hacq.dht,hsvc,hhost,hdht]
    · simp [hacq.host,hsvc,hhost,hcloseHost,hopen,hsvcOpen]
    · simp [hacq.dht,hsvc,hdht,hnew,hcloseDHT,hcancel,hopen,hsvcOpen]
    · simpa [hacq.lifecycle,hlife,lifecycle_eq_nil hquiet] using hl
    · exact List.forall_mem_append.mpr ⟨hacq.unclosed,hunclosed⟩
  · intro l hl
    have hcalls := lifecycle_startsInOrder o hl
    have hsvc := tally_of_lifecycle hcalls h
    have hlife : lifecycle l = l := List.filter_eq_self.mpr hcalls
    have hall : ∀ e ∈ acq ++ l, e.call.closes = false :=
      List.forall_mem_append.mpr ⟨hacq.unclosed,unclosed_of_lifecycle hcalls⟩
    refine adds_pure ?_
    rw [List.append_nil]
    refine ⟨?_,fun h => absurd rfl h,fun h => absurd rfl h,fun h => absurd rfl h,
      ⟨acq ++ l,[],by simp,hall,nofun⟩,fun _ => ⟨?_,?_,?_,hall⟩⟩
    · simp [hacq.host,hacq.dht,hsvc]
    · simp [hacq.host,hsvc]
    · simp [hacq.dht,hsvc]
    · cases hl
      simpa [hacq.lifecycle] using hlife

theorem adds_start (cfg : Config) (s : Server) :
    Adds (start o cfg s) fun out l => AllOrNothing o s.hosts s.services out.1 l := by
  refine (adds_pure (P := fun _ l => l = []) rfl).checking ?_ ?_
  · rintro e l rfl
    exact adds_pure (.early o (by decide) (by simp) (by simp) (by simp))
  rintro l rfl
  refine (adds_loadIdentity o cfg s).checking ?_ ?_
  · intro e l hl
    refine adds_pure (.early o (by decide) ?_ ?_ ?_) <;> simp [hl.tally,hl.lifecycle]
  intro lid hlid
  refine (adds_create o cfg s.hosts).checking ?_ ?_
  · rintro e l (⟨hnone,_⟩ | ⟨_,hl⟩)
    · cases hnone
    · rcases hl with ⟨e,rfl⟩ | ⟨e,rfl⟩ | ⟨e,e',rfl⟩
      all_goals
        refine adds_pure (.early o (by decide) ?_ ?_ ?_) <;>
          simp [hlid.tally,hlid.lifecycle,Call.lifecycle]
  rintro lhost (⟨_,lrelay,rfl,hlrelay⟩ | ⟨hsome,_⟩)
  swap
  · exact absurd rfl hsome
  refine (adds_performAll _).bind fun _ lnotify hlnotify => ?_
  have hnotify : Plain lnotify := by
    refine plain_of_calls hlnotify ?_
    split_ifs <;> simp [Call.plain,Call.lifecycle,Call.closes]
  refine (adds_newNode o cfg s.hosts).checking ?_ ?_
  · rintro e l (⟨hnone,_⟩ | ⟨_,hl⟩)
    · cases hnone
    · refine (adds_performAll _).bind fun _ lclose hlclose => adds_pure ?_
      obtain ⟨⟨c,e'⟩,rfl,rfl⟩ : ∃ x, lclose = [x] ∧ x.call = .closeHost s.hosts := by
        simpa using hlclose
      rcases hl with ⟨e₁,e₂,rfl⟩ | ⟨l',e₁,e₂,rfl,hl'⟩
      · refine .early o (by decide) ?_ ?_ ?_ <;>
          simp [hlid.tally,hlid.lifecycle,hlrelay.tally,hlrelay.lifecycle,hnotify.tally,
            hnotify.lifecycle,Call.lifecycle]
      · refine .early o (by decide) ?_ ?_ ?_ <;>
          simp [hlid.tally,hlid.lifecycle,hlrelay.tally,hlrelay.lifecycle,hnotify.tally,
            hnotify.lifecycle,hl'.tally,hl'.lifecycle,Call.lifecycle]
  rintro lnode (⟨_,lnode,rfl,hlnode⟩ | ⟨hsome,_⟩)
  swap
  · exact absurd rfl hsome
  refine (adds_performAll _).bind fun _ lset hlset => ?_
  have hset : Plain lset := plain_of_calls hlset (by simp [Call.plain,Call.lifecycle,Call.closes])
  have hacq : Acquired s.hosts (lid ++ (⟨.connectionLimits s.hosts,none⟩ ::
      ⟨.createHost s.hosts,none⟩ :: lrelay ++
        (lnotify ++ (⟨.newDHT s.hosts,none⟩ :: lnode ++ lset)))) := by
    refine ⟨?_,⟨?_,?_⟩,?_,?_⟩
    · simp [hlid.tally,hlrelay.tally,hnotify.tally,hlnode.tally,hset.tally]
    · simp [hlid.tally,hlrelay.tally,hnotify.tally,hlnode.tally,hset.tally]
    · simp [hlid.tally,hlrelay.tally,hnotify.tally,hlnode.tally,hset.tally]
    · simp [hlid.lifecycle,hlrelay.lifecycle,hnotify.lifecycle,hlnode.lifecycle,hset.lifecycle,
        Call.lifecycle]
    · have hhost : ∀ e ∈ (⟨.connectionLimits s.hosts,none⟩ :: ⟨.createHost s.hosts,none⟩ :: lrelay :
          Log), e.call.closes = false :=
        List.forall_mem_cons.mpr ⟨rfl,List.forall_mem_cons.mpr ⟨rfl,hlrelay.not_closes⟩⟩
      have hnode : ∀ e ∈ (⟨.newDHT s.hosts,none⟩ :: lnode : Log), e.call.closes = false :=
        List.forall_mem_cons.mpr ⟨rfl,hlnode.not_closes⟩
      simp only [List.forall_mem_append]
      exact ⟨hlid.not_closes,hhost,hnotify.not_closes,hnode,hset.not_closes⟩
  refine (adds_startServices o hacq s.services _).mono fun out l hl => ?_
  simpa using hl

section Failure

/-- What `Start` returns for the error of a call, if that is one of the calls it checks. -/
def failure : Call → GoErr → Option GoErr
  | .loadIdentity _,e => some (.wrap "load identity: " e)
  | .connectionLimits _,e => some (.wrap "create host: " e)
  | .createHost _,e => some (.wrap "create host: " (.wrap "create host: " e))
  | .newRelay _,e => some (.wrap "create host: " (.wrap "create relay service: " e))
  | .newDHT _,e => some (.wrap "create node: " (.wrap "create dht: " e))
  | .bootstrap _,e => some (.wrap "create node: " (.wrap "bootstrap dht: " e))
  | .newGossipSub _,e => some (.wrap "create node: " (.wrap "create gossipsub: " e))
  | .start svc,e => some (.wrap "start services: " (.wrap ("start " ++ o.name svc ++ ": ") e))
  | _,_ => none

def firstFailure (l : Log) : Option GoErr := l.findSome? fun x => x.err.bind (failure o x.call)

theorem firstFailure_append (l l' : Log) :
    firstFailure o (l ++ l') = (firstFailure o l).or (firstFailure o l') := List.findSome?_append

theorem firstFailure_unchecked {l : Log} (h : ∀ x ∈ l, ∀ e, failure o x.call e = none) :
    firstFailure o l = none := by
  rw [firstFailure,List.findSome?_eq_none_iff]
  intro x hx
  cases hx' : x.err with
  | none => rfl
  | some e => exact h x hx e

/-- The code fails with the first failure of its calls, as `report` reads it from the result. -/
def Fails {β : Type} (report : β → Option GoErr) (f : Acting Call GoErr β) : Prop :=
  Adds f fun b l => firstFailure o l = report b

variable {o} {β : Type} {report : β → Option GoErr}

theorem fails_pure {b : β} (h : report b = none) : Fails o report (pure b) := adds_pure h.symm

theorem fails_perform (c : Call) :
    Fails o (fun err => err.bind (failure o c)) (perform o.answer c) := by
  refine (adds_perform c).mono ?_
  rintro err l rfl
  cases h : err.bind (failure o c) <;> simp [firstFailure,h]

theorem fails_performAll_bind {cs : List Call} (hcs : ∀ c ∈ cs, ∀ e, failure o c e = none)
    {next : Acting Call GoErr β} (hnext : Fails o report next) :
    Fails o report (performAll o.answer cs >>= fun _ => next) := by
  refine (adds_performAll cs).bind fun _ l hl => hnext.mono fun b l' hl' => ?_
  have hquiet : firstFailure o l = none :=
    firstFailure_unchecked o fun x hx => hcs x.call (hl ▸ List.mem_map_of_mem hx)
  rw [firstFailure_append,hquiet,Option.none_or,hl']

theorem reports_released (cs : List Call) {b : β} {e : GoErr} (h : report b = some e) :
    Adds (performAll o.answer cs >>= fun _ => pure b) fun b _ => report b = some e :=
  (adds_performAll cs).bind fun _ _ _ => adds_pure h

/-- A call that is checked: its failure is reported, or what follows reports the first one. -/
theorem Fails.checking {f : Acting Call GoErr (Option GoErr)} {inner : Option GoErr → Option GoErr}
    {failed : GoErr → Acting Call GoErr β} {next : Acting Call GoErr β} (hf : Fails o inner f)
    (hnone : inner none = none)
    (hfailed : ∀ e, ∃ e', inner (some e) = some e' ∧ Adds (failed e) fun b _ => report b = some e')
    (hnext : Fails o report next) : Fails o report (checking f failed next) := by
  refine Adds.checking hf ?_ ?_
  · intro e l hl
    obtain ⟨e',he',hreport⟩ := hfailed e
    refine hreport.mono fun b l' hb => ?_
    rw [firstFailure_append,hl,he',Option.some_or,hb]
  · intro l hl
    refine hnext.mono fun b l' hl' => ?_
    rw [firstFailure_append,hl,hnone,Option.none_or,hl']

theorem fails_create (cfg : Config) (h : ℕ) :
    Fails o (Option.map (.wrap "create host: ")) (create o cfg h) := by
  refine (fails_perform _).checking rfl (fun e => ⟨_,rfl,adds_pure rfl⟩) ?_
  refine (fails_perform _).checking rfl (fun e => ⟨_,rfl,adds_pure rfl⟩) ?_
  split_ifs
  · exact (fails_perform _).checking rfl (fun e => ⟨_,rfl,reports_released _ rfl⟩) (fails_pure rfl)
  · exact fails_pure rfl

theorem fails_newNode (cfg : Config) (h : ℕ) :
    Fails o (Option.map (.wrap "create node: ")) (newNode o cfg h) := by
  refine (fails_perform _).checking rfl (fun e => ⟨_,rfl,reports_released _ rfl⟩) ?_
  refine (fails_perform _).checking rfl (fun e => ⟨_,rfl,reports_released _ rfl⟩) ?_
  refine fails_performAll_bind (by simp [failure]) ?_
  split_ifs
  · exact (fails_perform _).checking rfl (fun e => ⟨_,rfl,reports_released _ rfl⟩) (fails_pure rfl)
  · exact fails_pure rfl

theorem fails_startAll (svcs : List Service) :
    Fails o (Option.map (.wrap "start services: ")) (startAll o svcs) := by
  have hstarted : ∀ svcs : List Service, firstFailure o (svcs.map startedEntry) = none := by
    intro svcs
    simp [firstFailure,startedEntry]
  refine (adds_startFrom o [] svcs).mono fun err l h => ?_
  cases h with
  | all => exact hstarted svcs
  | upTo pre svc post e stops hstops =>
    rw [firstFailure_append,hstarted,Option.none_or]
    rfl

theorem fails_start {cfg : Config} (hcfg : cfg.validate = none) (s : Server) :
    Fails o (fun out => out.1) (start o cfg s) := by
  have hid : Fails o (Option.map (.wrap "load identity: ")) (loadIdentity o cfg s) := by
    unfold loadIdentity
    split_ifs
    · exact fails_pure rfl
    · refine (fails_perform _).mono fun err l hl => hl.trans ?_
      cases err <;> rfl
  unfold start
  rw [hcfg]
  refine hid.checking rfl (fun e => ⟨_,rfl,adds_pure rfl⟩) ?_
  refine (fails_create cfg s.hosts).checking rfl (fun e => ⟨_,rfl,adds_pure rfl⟩) ?_
  refine fails_performAll_bind ?_ ?_
  · split_ifs <;> simp [failure]
  refine (fails_newNode cfg s.hosts).checking rfl (fun e => ⟨_,rfl,reports_released _ rfl⟩) ?_
  refine fails_performAll_bind (by simp [failure]) ?_
  exact (fails_startAll s.services).checking rfl (fun e => ⟨_,rfl,reports_released _ rfl⟩)
    (fails_pure rfl)

end Failure

theorem honest_loadIdentity (cfg : Config) (s : Server) :
    Honest o.answer (loadIdentity o cfg s) := by
  unfold loadIdentity
  split_ifs
  · exact honest_pure none
  · exact honest_perform _

theorem honest_create (cfg : Config) (h : ℕ) : Honest o.answer (create o cfg h) := by
  refine (honest_perform _).checking (fun _ => honest_pure _) ?_
  refine (honest_perform _).checking (fun _ => honest_pure _) ?_
  split_ifs
  · exact (honest_perform _).checking (fun _ => honest_released _ _) (honest_pure _)
  · exact honest_pure _

theorem honest_newNode (cfg : Config) (h : ℕ) : Honest o.answer (newNode o cfg h) := by
  refine (honest_perform _).checking (fun _ => honest_released _ _) ?_
  refine (honest_perform _).checking (fun _ => honest_released _ _) ?_
  refine (honest_performAll _).bind fun _ => ?_
  split_ifs
  · exact (honest_perform _).checking (fun _ => honest_released _ _) (honest_pure _)
  · exact honest_pure _

theorem honest_start (cfg : Config) (s : Server) : Honest o.answer (start o cfg s) := by
  refine (honest_pure _).checking (fun _ => honest_pure _) ?_
  refine (honest_loadIdentity o cfg s).checking (fun _ => honest_pure _) ?_
  refine (honest_create o cfg s.hosts).checking (fun _ => honest_pure _) ?_
  refine (honest_performAll _).bind fun _ => ?_
  refine (honest_newNode o cfg s.hosts).checking (fun _ => honest_released _ _) ?_
  refine (honest_performAll _).bind fun _ => ?_
  exact (honest_startFrom o [] s.services).checking (fun _ => honest_released _ _) (honest_pure _)

/-- `Start` is all or nothing, whatever is on the log, whatever the server, and wherever it
fails, even if the calls that release things fail too. It returns the first failure there is, that
of the configuration or that of a call it checks, and nil if there is none. -/
theorem start_allOrNothing (cfg : Config) (s : Server) (log : Log) :
    ∃ l, (start o cfg s log).2 = log ++ l ∧ Answered o.answer log l ∧
      (start o cfg s log).1.1 = (match cfg.validate with
        | some e => some (.wrap "invalid config: " e)
        | none => firstFailure o l) ∧
      AllOrNothing o s.hosts s.services (start o cfg s log).1.1 l := by
  obtain ⟨l,hlog,hall⟩ := adds_start o cfg s log
  refine ⟨l,hlog,(honest_start o cfg s).answered hlog,?_,hall⟩
  cases hcfg : cfg.validate with
  | some e =>
    rw [start,hcfg]
    rfl
  | none =>
    obtain ⟨l',hlog',hfails⟩ := fails_start hcfg s log
    obtain rfl : l = l' := List.append_cancel_left (hlog.symm.trans hlog')
    exact hfails.symm

def stopCalls (cfg : Config) (s : Server) : List Call :=
  match s.host,s.handlers with
  | none,_ :: _ => []
  | host,handlers =>
    (host.toList.flatMap fun h => handlers.map (.removeStreamHandler h)) ++
      ((if cfg.shutdownTimeout > 0 then [.wait] else []) ++
        (s.services.reverse.map .stop ++ s.node.toList.flatMap closeCalls))

theorem adds_stop_calls (cfg : Config) (s : Server) :
    Adds (stop o cfg s) fun out l => l.map Entry.call = stopCalls cfg s ∧
      (out = .nilHost ∧ ¬ (s.handlers = [] ∨ s.host ≠ none) ∨
        out = .returned none ∧ (s.handlers = [] ∨ s.host ≠ none)) := by
  unfold stop stopCalls
  split
  · rename_i hhost hhandlers
    exact adds_pure ⟨rfl,.inl ⟨rfl,by simp [hhost,hhandlers]⟩⟩
  · rename_i hsome
    have hhost : s.handlers = [] ∨ s.host ≠ none := by
      cases hhandlers : s.handlers with
      | nil => exact .inl rfl
      | cons id ids => exact .inr fun hnone => hsome id ids hnone hhandlers
    refine (adds_performAll _).bind fun _ lremove hremove => ?_
    refine (adds_performAll _).bind fun _ lwait hwait => ?_
    refine (adds_stopAll o s.services).bind fun _ lstop hstop => ?_
    refine (adds_performAll _).bind fun _ lclose hclose => adds_pure ⟨?_,.inr ⟨rfl,hhost⟩⟩
    simp only [List.map_append,hremove,hwait,hstop.1,hclose,List.append_nil]

theorem filter_lifecycle_stopCalls (cfg : Config) (s : Server)
    (hhost : s.handlers = [] ∨ s.host ≠ none) :
    (stopCalls cfg s).filter Call.lifecycle = s.services.reverse.map .stop := by
  have hnone : ∀ {cs : List Call}, (∀ c ∈ cs, c.lifecycle = false) →
      cs.filter Call.lifecycle = [] := by
    intro cs hcs
    rw [List.filter_eq_nil_iff]
    exact fun c hc => by simp [hcs c hc]
  have hstops : (s.services.reverse.map Call.stop).filter Call.lifecycle =
      s.services.reverse.map Call.stop := by
    rw [List.filter_eq_self]
    intro c hc
    obtain ⟨svc,_,rfl⟩ := List.mem_map.mp hc
    rfl
  unfold stopCalls
  split
  · rename_i hnil hcons
    rw [hnil,hcons] at hhost
    simp at hhost
  · rw [List.filter_append,List.filter_append,List.filter_append,hstops,hnone,hnone,hnone]
    · simp
    · intro c hc
      obtain ⟨h,_,hc⟩ := List.mem_flatMap.mp hc
      exact lifecycle_closeCalls h c hc
    · split_ifs <;> simp [Call.lifecycle]
    · intro c hc
      obtain ⟨h,_,hc⟩ := List.mem_flatMap.mp hc
      obtain ⟨id,_,rfl⟩ := List.mem_map.mp hc
      rfl

/-- What `Stop` adds to the log: without a host to remove its handlers from it gets nowhere, and
otherwise it stops every service, the last one first. -/
theorem adds_stop (cfg : Config) (s : Server) :
    Adds (stop o cfg s) fun out l =>
      (out = .nilHost ∧ ¬ (s.handlers = [] ∨ s.host ≠ none) ∧ l = []) ∨
      (out = .returned none ∧ (s.handlers = [] ∨ s.host ≠ none) ∧
        (lifecycle l).map Entry.call = s.services.reverse.map .stop) := by
  refine (adds_stop_calls o cfg s).mono ?_
  rintro out l ⟨hcalls,⟨rfl,hnil⟩ | ⟨rfl,hhost⟩⟩
  · obtain ⟨hhandlers,hhost⟩ := not_or.mp hnil
    obtain ⟨id,ids,hcons⟩ := List.exists_cons_of_ne_nil hhandlers
    refine .inl ⟨rfl,hnil,?_⟩
    rw [stopCalls,not_not.mp hhost,hcons] at hcalls
    exact List.map_eq_nil_iff.mp hcalls
  · refine .inr ⟨rfl,hhost,?_⟩
    rw [map_call_lifecycle,hcalls,filter_lifecycle_stopCalls cfg s hhost]

end Server
end P2PForge
