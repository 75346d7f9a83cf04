import P2PForge.StopSafety

/-! The hosts a server holds open.
A server knows of one host and one node only, and each `Start` that gets that far puts new ones in
their place. Runs of its methods are followed by the set of hosts that were made and not closed;
those that are not the server's node any more are out of reach of every later `Stop`. -/
namespace P2PForge

open Acting Lifecycle Log Running

def Call.about : Call → Option ℕ
  | .createHost h | .newDHT h | .cancel h | .closeDHT h | .closeHost h => some h
  | _ => none

theorem Call.about_of_plain {c : Call} (h : c.plain = true) : c.about = none := by
  cases c <;> first | rfl | cases h

theorem Call.about_of_lifecycle {c : Call} (h : c.lifecycle = true) : c.about = none := by
  cases c <;> first | rfl | cases h

namespace Log

def Stays (h : ℕ) (l : Log) : Prop := ∀ e ∈ l, ∀ n, e.call.about = some n → n = h

/-- The host was made and has not been closed, by the calls of the log. -/
def HostOpen (l : Log) (n : ℕ) : Prop := calls l (.closeHost n) < made l (.createHost n)

def DHTOpen (l : Log) (n : ℕ) : Prop := calls l (.closeDHT n) < made l (.newDHT n)

variable {h n : ℕ} {l l' : Log}

theorem tally_of_not_about (hl : ∀ e ∈ l, e.call.about ≠ some n) :
    made l (.createHost n) = 0 ∧ calls l (.closeHost n) = 0 ∧
      made l (.newDHT n) = 0 ∧ calls l (.closeDHT n) = 0 := by
  have hne : ∀ {c : Call}, c.about = some n → ∀ e ∈ l, e.call ≠ c := by
    rintro c hc e he rfl
    exact hl e he hc
  exact ⟨made_eq_zero (hne rfl),calls_eq_zero (hne rfl),made_eq_zero (hne rfl),
    calls_eq_zero (hne rfl)⟩

theorem Stays.not_about (hl : Stays h l) (hn : n ≠ h) : ∀ e ∈ l, e.call.about ≠ some n :=
  fun e he habout => hn (hl e he n habout)

theorem open_append_of_not_about (hl : ∀ e ∈ l', e.call.about ≠ some n) :
    (HostOpen (l ++ l') n ↔ HostOpen l n) ∧ (DHTOpen (l ++ l') n ↔ DHTOpen l n) := by
  obtain ⟨hmade,hclosed,hmade',hclosed'⟩ := tally_of_not_about hl
  simp [HostOpen,DHTOpen,hmade,hclosed,hmade',hclosed']

theorem Plain.stays (hl : Plain l) : Stays h l := by
  intro e he n hn
  rw [Call.about_of_plain (hl e he)] at hn
  cases hn

theorem stays_nil : Stays h [] := fun _ he => absurd he List.not_mem_nil

theorem Stays.append (hl : Stays h l) (hl' : Stays h l') : Stays h (l ++ l') :=
  fun e he => (List.mem_append.mp he).elim (hl e) (hl' e)

theorem Stays.cons {x : Entry Call GoErr} (he : x.call.about = some h) (hl : Stays h l) :
    Stays h (x :: l) := by
  refine List.forall_mem_cons.mpr ⟨?_,hl⟩
  intro n hn
  exact Option.some.inj (hn.symm.trans he)

theorem stays_of_calls {cs : List Call} (hl : l.map Entry.call = cs)
    (hcs : ∀ c ∈ cs, ∀ n, c.about = some n → n = h) : Stays h l :=
  fun _ he => hcs _ (hl ▸ List.mem_map_of_mem he)

theorem stays_of_lifecycle (hl : ∀ e ∈ l, e.call.lifecycle = true) : Stays h l := by
  intro e he n hn
  rw [Call.about_of_lifecycle (hl e he)] at hn
  cases hn

end Log

namespace Server

variable (o : Outside)

theorem stays_closeCalls {h : ℕ} {l : Log} (hl : l.map Entry.call = closeCalls h) : Stays h l := by
  apply stays_of_calls hl
  intro c hc n hn
  simp only [closeCalls,List.mem_cons,List.not_mem_nil,or_false] at hc
  rcases hc with rfl | rfl | rfl | rfl | rfl <;> cases hn <;> rfl

/-- The server that a `Start` leaves, by how far it got. -/
inductive Started (s : Server) (l : Log) : Option GoErr × Server → Prop
  | early {text : String} {e : GoErr} : text ∈ ["invalid config: ","load identity: "] → Plain l →
    Started s l (some (.wrap text e),s)
  | noHost {e : GoErr} : Stays s.hosts l →
    Started s l (some (.wrap "create host: " e),{ s with identity := true,hosts := s.hosts + 1 })
  | noNode {e : GoErr} : Stays s.hosts l →
    Started s l (some (.wrap "create node: " e),
      { s with identity := true,hosts := s.hosts + 1,host := some s.hosts })
  | made {err : Option GoErr} : (∀ e, err = some e → ∃ cause, e = .wrap "start services: " cause) →
    Stays s.hosts l → Started s l (err,{ s with
      identity := true
      hosts := s.hosts + 1
      host := some s.hosts
      node := some s.hosts })

theorem adds_create_stays (cfg : Config) (h : ℕ) :
    Adds (create o cfg h) fun _ l => Stays h l := by
  refine (adds_create o cfg h).mono ?_
  have hlimits : ∀ err, Stays h [⟨.connectionLimits h,err⟩] := fun err =>
    (plain_singleton rfl err).stays
  rintro err l (⟨_,l',rfl,hl'⟩ | ⟨_,⟨e,rfl⟩ | ⟨e,rfl⟩ | ⟨e,e',rfl⟩⟩)
  · exact .append (hlimits none) (.cons rfl hl'.stays)
  · exact hlimits (some e)
  · exact .append (hlimits none) (.cons rfl stays_nil)
  · exact .append (hlimits none)
      (.cons rfl (.append (plain_singleton rfl _).stays (.cons rfl stays_nil)))

theorem adds_newNode_stays (cfg : Config) (h : ℕ) :
    Adds (newNode o cfg h) fun _ l => Stays h l := by
  refine (adds_newNode o cfg h).mono ?_
  rintro err l (⟨_,l',rfl,hl'⟩ | ⟨_,⟨e,e',rfl⟩ | ⟨l',e,e',rfl,hl'⟩⟩)
  · exact .cons rfl hl'.stays
  · exact .cons rfl (.cons rfl stays_nil)
  · exact .append (.cons rfl hl'.stays) (.cons rfl (.cons rfl stays_nil))

theorem adds_start_server (cfg : Config) (s : Server) :
    Adds (start o cfg s) fun out l => Started s l out := by
  refine (adds_pure (P := fun _ l => l = []) rfl).checking ?_ ?_
  · rintro e l rfl
    refine adds_pure (.early (by simp) ?_)
    exact fun e he => absurd he List.not_mem_nil
  rintro l rfl
  refine (adds_loadIdentity o cfg s).checking ?_ ?_
  · intro e l hl
    refine adds_pure (.early (by simp) ?_)
    simpa using hl
  intro lid hlid
  refine (adds_create_stays o cfg s.hosts).checking ?_ ?_
  · intro e l hl
    refine adds_pure (.noHost ?_)
    exact .append stays_nil (.append hlid.stays (.append hl stays_nil))
  intro lhost hlhost
  refine (adds_performAll _).bind fun _ lnotify hlnotify => ?_
  have hnotify : Plain lnotify := by
    refine plain_of_calls hlnotify ?_
    split_ifs <;> simp [Call.plain,Call.lifecycle,Call.closes]
  have hsofar : Stays s.hosts (lid ++ (lhost ++ lnotify)) :=
    .append hlid.stays (.append hlhost hnotify.stays)
  refine (adds_newNode_stays o cfg s.hosts).checking ?_ ?_
  · intro e l hl
    refine (adds_performAll _).bind fun _ lclose hlclose => adds_pure (.noNode ?_)
    have hclose : Stays s.hosts lclose :=
      stays_of_calls hlclose (by simp [Call.about])
    simpa using hsofar.append (hl.append hclose)
  intro lnode hlnode
  refine (adds_performAll _).bind fun _ lset hlset => ?_
  have hset : Plain lset := plain_of_calls hlset (by simp [Call.plain,Call.lifecycle,Call.closes])
  have hsofar : Stays s.hosts (lid ++ (lhost ++ (lnotify ++ (lnode ++ lset)))) := by
    simpa using hsofar.append (hlnode.append hset.stays)
  refine (adds_startFrom o [] s.services).checking ?_ ?_
  · intro e l hl
    have hservices : Stays s.hosts l := stays_of_lifecycle (lifecycle_startsInOrder o hl)
    refine (adds_performAll _).bind fun _ lclose hlclose => adds_pure (.made ?_ ?_)
    · intro e' he'
      obtain rfl := Option.some.inj he'
      exact ⟨e,rfl⟩
    · simpa using hsofar.append (hservices.append (stays_closeCalls hlclose))
  · intro l hl
    have hservices : Stays s.hosts l := stays_of_lifecycle (lifecycle_startsInOrder o hl)
    refine adds_pure (.made ?_ ?_)
    · intro e he
      cases he
    · simpa using hsofar.append hservices

theorem mem_foldl_rollback {R : Set Service} {pre : List Service} {svc a : Service} {e : GoErr}
    {stops : Log} (hstops : stops.map Entry.call = pre.reverse.map .stop)
    (ha : a ∈ (pre.map startedEntry ++ ⟨.start svc,some e⟩ :: stops).foldl after R) : a ∈ R := by
  rw [List.foldl_append,List.foldl_cons,mem_foldl_stops hstops] at ha
  simp only [after,reduceCtorEq,if_false,Set.mem_sdiff,Set.mem_singleton_iff,mem_foldl_started,
    List.mem_reverse] at ha
  exact ha.1.1.resolve_right ha.2

theorem running_start {h : ℕ} {svcs : List Service} {err : Option GoErr} {log l : Log}
    (hall : AllOrNothing o h svcs err l) {svc : Service} (hsvc : svc ∈ running (log ++ l)) :
    svc ∈ running log ∨ err = none ∧ svc ∈ svcs := by
  rw [running_append,foldl_after_lifecycle] at hsvc
  cases err with
  | none =>
    obtain ⟨_,_,hlife,_⟩ := hall.kept rfl
    rw [hlife] at hsvc
    exact (mem_foldl_started.mp hsvc).imp_right fun h => ⟨rfl,h⟩
  | some e =>
    rcases hall.services nofun with ⟨hlife,_⟩ | ⟨cause,herr,horder⟩
    · rw [hlife] at hsvc
      exact .inl hsvc
    · obtain ⟨pre,a,post,e,stops,_,hlife,hstops⟩ := horder.failed
      rw [List.append_nil] at hstops
      rw [hlife] at hsvc
      exact .inl (mem_foldl_rollback hstops hsvc)

theorem running_stop {svcs : List Service} {log l : Log}
    (hl : (lifecycle l).map Entry.call = svcs.reverse.map .stop) {svc : Service}
    (hsvc : svc ∈ running (log ++ l)) : svc ∈ running log ∧ svc ∉ svcs := by
  rw [running_append,foldl_after_lifecycle,mem_foldl_stops hl,List.mem_reverse] at hsvc
  exact hsvc

theorem mem_stopCalls {cfg : Config} {s : Server} {c : Call} {n : ℕ} (hc : c ∈ stopCalls cfg s)
    (hn : c.about = some n) : s.node = some n ∧ c ∈ closeCalls n := by
  unfold stopCalls at hc
  split at hc
  · cases hc
  · simp only [List.mem_append,List.mem_flatMap,List.mem_map,Option.mem_toList] at hc
    rcases hc with ⟨h,_,id,_,rfl⟩ | hwait | ⟨svc,_,rfl⟩ | ⟨h,hnode,hclose⟩
    · cases hn
    · split_ifs at hwait
      · rw [List.mem_singleton.mp hwait] at hn
        cases hn
      · cases hwait
    · cases hn
    · obtain rfl : n = h := by
        simp only [closeCalls,List.mem_cons,List.not_mem_nil,or_false] at hclose
        rcases hclose with rfl | rfl | rfl | rfl | rfl <;> cases hn <;> rfl
      exact ⟨hnode,hclose⟩

theorem closeCalls_subset_stopCalls {cfg : Config} {s : Server} {n : ℕ}
    (hhost : s.handlers = [] ∨ s.host ≠ none) (hnode : s.node = some n) :
    closeCalls n ⊆ stopCalls cfg s := by
  intro c hc
  unfold stopCalls
  split
  · rename_i hnone hcons
    rw [hnone,hcons] at hhost
    simp at hhost
  · simp [hnode,hc]

def held (s : Server) (live : Finset ℕ) : Op → Outcome → Finset ℕ
  | .start _,.returned none => insert s.hosts live
  | .stop _,.returned _ => live.filter fun n => s.node ≠ some n
  | _,_ => live

/-- The books of a server: which hosts are open, none of them made by another one, and that only
its own services run. -/
structure Accounts (s : Server) (live : Finset ℕ) (log : Log) : Prop where
  fresh : ∀ e ∈ log, ∀ n, e.call.about = some n → n < s.hosts
  node : ∀ n, s.node = some n → n < s.hosts
  once : ∀ n, made log (.createHost n) ≤ 1 ∧ made log (.newDHT n) ≤ 1
  host : ∀ n, HostOpen log n ↔ n ∈ live
  dht : ∀ n, DHTOpen log n ↔ n ∈ live
  known : ∀ svc ∈ running log, svc ∈ s.services

namespace Accounts

variable {o} {s : Server} {live : Finset ℕ} {log l : Log} (v : Accounts s live log)
include v

theorem not_about {n : ℕ} (hn : s.hosts ≤ n) : ∀ e ∈ log, e.call.about ≠ some n :=
  fun e he habout => absurd (v.fresh e he n habout) (by omega)

theorem not_mem_live {n : ℕ} (hn : s.hosts ≤ n) : n ∉ live := by
  rw [← v.host n,HostOpen]
  obtain ⟨hmade,_⟩ := tally_of_not_about (v.not_about hn)
  omega

theorem open_start {err : Option GoErr} (hall : AllOrNothing o s.hosts s.services err l) :
    (HostOpen (log ++ l) s.hosts ↔ err = none) ∧ (DHTOpen (log ++ l) s.hosts ↔ err = none) ∧
      made (log ++ l) (.createHost s.hosts) ≤ 1 ∧ made (log ++ l) (.newDHT s.hosts) ≤ 1 := by
  obtain ⟨hmade,hclosed,hmade',hclosed'⟩ := tally_of_not_about (v.not_about le_rfl)
  simp only [HostOpen,DHTOpen,made_append,calls_append,hmade,hclosed,hmade',hclosed',zero_add]
  refine ⟨?_,?_,hall.once⟩
  · cases err with
    | none =>
      obtain ⟨hhost,_,_,hunclosed⟩ := hall.kept rfl
      obtain ⟨hclose,_⟩ := tally_of_unclosed hunclosed s.hosts
      simp [hhost,hclose]
    | some e => simp [hall.host nofun]
  · cases err with
    | none =>
      obtain ⟨_,hdht,_,hunclosed⟩ := hall.kept rfl
      obtain ⟨_,hclose,_⟩ := tally_of_unclosed hunclosed s.hosts
      simp [hdht,hclose]
    | some e => simp [(hall.dht nofun).1]

theorem start (cfg : Config) {out : Option GoErr × Server}
    (hall : AllOrNothing o s.hosts s.services out.1 l) (hstarted : Started s l out) :
    Accounts out.2 (held s live (.start cfg) (.returned out.1)) (log ++ l) := by
  have hstays : Stays s.hosts l := by
    cases hstarted with
    | early _ hl => exact hl.stays
    | noHost hl | noNode hl | made _ hl => exact hl
  have hopen := v.open_start hall
  have hmem : ∀ n, n ∈ held s live (.start cfg) (.returned out.1) ↔
      n ∈ live ∨ n = s.hosts ∧ out.1 = none := by
    intro n
    cases out.1 with
    | none => simp [held,or_comm]
    | some e => simp [held]
  have hiff : ∀ n, (HostOpen (log ++ l) n ↔ n ∈ live ∨ n = s.hosts ∧ out.1 = none) ∧
      (DHTOpen (log ++ l) n ↔ n ∈ live ∨ n = s.hosts ∧ out.1 = none) ∧
        made (log ++ l) (.createHost n) ≤ 1 ∧ made (log ++ l) (.newDHT n) ≤ 1 := by
    intro n
    by_cases hn : n = s.hosts
    · subst hn
      simpa [v.not_mem_live le_rfl] using hopen
    · have hother := hstays.not_about hn
      obtain ⟨hhost,hdht⟩ := open_append_of_not_about (l := log) hother
      obtain ⟨hmade,_,hmade',_⟩ := tally_of_not_about hother
      simpa [hn,hhost,hdht,hmade,hmade',v.host n,v.dht n] using v.once n
  have hservices : out.2.services = s.services := by cases hstarted <;> rfl
  refine ⟨?_,?_,fun n => (hiff n).2.2,fun n => (hiff n).1.trans (hmem n).symm,
    fun n => (hiff n).2.1.trans (hmem n).symm,?_⟩
  · intro e he n hn
    rcases List.mem_append.mp he with hold | hnew
    · have hlt := v.fresh e hold n hn
      cases hstarted with
      | early => exact hlt
      | noHost | noNode | made => exact Nat.lt_succ_of_lt hlt
    · cases hstarted with
      | early _ hl =>
        rw [Call.about_of_plain (hl e hnew)] at hn
        cases hn
      | noHost | noNode | made =>
        rw [hstays e hnew n hn]
        exact Nat.lt_succ_self _
  · intro n hn
    cases hstarted with
    | early => exact v.node n hn
    | noHost | noNode => exact Nat.lt_succ_of_lt (v.node n hn)
    | made =>
      cases hn
      exact Nat.lt_succ_self _
  · intro svc hsvc
    rw [hservices]
    rcases running_start o hall hsvc with hold | ⟨_,hnew⟩
    · exact v.known svc hold
    · exact hnew

theorem stop (cfg : Config) (hcalls : l.map Entry.call = stopCalls cfg s)
    (hhost : s.handlers = [] ∨ s.host ≠ none)
    (hlife : (lifecycle l).map Entry.call = s.services.reverse.map .stop) :
    Accounts s (held s live (.stop cfg) (.returned none)) (log ++ l) := by
  have hmem : ∀ e ∈ l, e.call ∈ stopCalls cfg s := fun e he => hcalls ▸ List.mem_map_of_mem he
  have hmade : ∀ n, made l (.createHost n) = 0 ∧ made l (.newDHT n) = 0 := by
    intro n
    constructor <;>
    · refine made_eq_zero fun e he heq => ?_
      obtain ⟨_,hclose⟩ := mem_stopCalls (heq ▸ hmem e he) rfl
      simp [closeCalls] at hclose
  have hiff : ∀ n, (HostOpen (log ++ l) n ↔ n ∈ live ∧ s.node ≠ some n) ∧
      (DHTOpen (log ++ l) n ↔ n ∈ live ∧ s.node ≠ some n) := by
    intro n
    by_cases hnode : s.node = some n
    · have hpos : ∀ c ∈ closeCalls n, 0 < calls l c := by
        intro c hc
        rw [calls,List.count_pos_iff,hcalls]
        exact closeCalls_subset_stopCalls hhost hnode hc
      have hclosed := hpos (.closeHost n) (by simp [closeCalls])
      have hclosed' := hpos (.closeDHT n) (by simp [closeCalls])
      obtain ⟨honce,honce'⟩ := v.once n
      obtain ⟨hnew,hnew'⟩ := hmade n
      simp only [HostOpen,DHTOpen,made_append,calls_append,hnode,ne_eq,not_true_eq_false,and_false,
        iff_false]
      omega
    · have hother : ∀ e ∈ l, e.call.about ≠ some n :=
        fun e he habout => hnode (mem_stopCalls (hmem e he) habout).1
      obtain ⟨hopen,hdht⟩ := open_append_of_not_about (l := log) hother
      simp [hopen,hdht,v.host n,v.dht n,hnode]
  have hheld : ∀ n, n ∈ held s live (.stop cfg) (.returned none) ↔ n ∈ live ∧ s.node ≠ some n :=
    fun n => Finset.mem_filter
  have hknown : ∀ svc ∈ running (log ++ l), svc ∈ s.services :=
    fun svc hsvc => v.known svc (running_stop hlife hsvc).1
  refine ⟨?_,v.node,?_,fun n => (hiff n).1.trans (hheld n).symm,
    fun n => (hiff n).2.trans (hheld n).symm,hknown⟩
  · intro e he n hn
    rcases List.mem_append.mp he with hold | hnew
    · exact v.fresh e hold n hn
    · exact v.node n (mem_stopCalls (hmem e hnew) hn).1
  · intro n
    simpa [hmade n] using v.once n

end Accounts

theorem adds_call_accounts (s : Server) (op : Op) :
    Adds (call o s op) fun out l => ∀ live log, Accounts s live log →
      Accounts out.2 (held s live op out.1) (log ++ l) := by
  cases op with
  | handle id =>
    refine adds_pure fun live log v => ?_
    rw [List.append_nil]
    exact ⟨v.fresh,v.node,v.once,v.host,v.dht,v.known⟩
  | addService svc =>
    refine adds_pure fun live log v => ?_
    rw [List.append_nil]
    exact ⟨v.fresh,v.node,v.once,v.host,v.dht,
      fun a ha => List.mem_append_left _ (v.known a ha)⟩
  | start cfg =>
    refine ((adds_start o cfg s).and (adds_start_server o cfg s)).bind ?_
    rintro out l ⟨hall,hstarted⟩
    refine adds_pure fun live log v => ?_
    rw [List.append_nil]
    exact v.start cfg hall hstarted
  | stop cfg =>
    refine ((adds_stop_calls o cfg s).and (adds_stop o cfg s)).bind ?_
    rintro out l ⟨⟨hcalls,_⟩,⟨rfl,_,rfl⟩ | ⟨rfl,hhost,hlife⟩⟩
    · refine adds_pure fun live log v => ?_
      rw [List.append_nil,List.append_nil]
      exact v
    · refine adds_pure fun live log v => ?_
      rw [List.append_nil]
      exact v.stop cfg hcalls hhost hlife

/-- A `Start` that made a node has put it in the place of the one before, even if its services
failed. -/
def replaces : Op → Outcome → Bool
  | .start _,.returned none => true
  | .start _,.returned (some (.wrap text _)) => text = "start services: "
  | _,_ => false

theorem adds_call_node (s : Server) (op : Op) :
    Adds (call o s op) fun out _ =>
      out.2.node = if replaces op out.1 then some s.hosts else s.node := by
  cases op with
  | handle id => exact adds_pure rfl
  | addService svc => exact adds_pure rfl
  | start cfg =>
    refine (adds_start_server o cfg s).bind ?_
    intro out l hstarted
    refine adds_pure ?_
    cases hstarted with
    | @early text e htext _ =>
      simp only [List.mem_cons,List.not_mem_nil,or_false] at htext
      rcases htext with rfl | rfl <;> rfl
    | noHost | noNode => rfl
    | @made err herr _ =>
      cases err with
      | none => rfl
      | some e =>
        obtain ⟨cause,rfl⟩ := herr e rfl
        rfl
  | stop cfg => exact (adds_stop_calls o cfg s).bind fun _ _ _ => adds_pure rfl

/-- A host that is open, and that no `Stop` of the server will close. -/
def Lost (s : Server) (log : Log) (n : ℕ) : Prop := HostOpen log n ∧ s.node ≠ some n

/-- A host that was open when a `Start` put another node in the place of the server's. -/
def Overtaken (n : ℕ) : Server → Log → List Op → Prop
  | _,_,[] => False
  | s,log,op :: ops =>
    let out := call o s op log
    replaces op out.1.1 = true ∧ HostOpen log n ∨ Overtaken n out.1.2 out.2 ops

variable {o} {s : Server} {live : Finset ℕ} {log : Log}

theorem Accounts.call (v : Accounts s live log) (op : Op) :
    Accounts (call o s op log).1.2 (held s live op (call o s op log).1.1) (call o s op log).2 ∧
      (call o s op log).1.2.node =
        if replaces op (call o s op log).1.1 then some s.hosts else s.node := by
  obtain ⟨l,hlog,haccounts,hnode⟩ := (adds_call_accounts o s op).and (adds_call_node o s op) log
  rw [hlog]
  exact ⟨haccounts live log v,hnode⟩

theorem mem_held_of_replaces {op : Op} {out : Outcome} (h : replaces op out = true) {n : ℕ}
    (hn : n ≠ s.hosts) : n ∈ held s live op out ↔ n ∈ live := by
  unfold replaces at h
  split at h
  · simp [held,hn]
  · rfl
  · cases h

theorem mem_held_of_not_replaces {op : Op} {out : Outcome} (h : replaces op out = false) {n : ℕ}
    (hn : s.node ≠ some n) : n ∈ held s live op out ↔ n ∈ live := by
  unfold held
  split
  · cases h
  · simp [hn]
  · rfl

/-- What a call of a method loses: the hosts that it overtakes. -/
theorem Accounts.lost_call (v : Accounts s live log) (op : Op) (n : ℕ) :
    Lost (Server.call o s op log).1.2 (Server.call o s op log).2 n ↔
      Lost s log n ∨
        replaces op (Server.call o s op log).1.1 = true ∧ HostOpen log n := by
  obtain ⟨v',hnode⟩ := v.call (o := o) op
  rw [Lost,Lost,v'.host n,v.host n,hnode]
  cases hreplaces : replaces op (Server.call o s op log).1.1 with
  | true =>
    by_cases hn : n = s.hosts
    · subst hn
      simp [v.not_mem_live le_rfl]
    · have hnew : some s.hosts ≠ some n := fun h => hn (Option.some.inj h).symm
      rw [mem_held_of_replaces hreplaces hn]
      simp only [if_true,ne_eq,hnew,not_false_eq_true,and_true,true_and]
      tauto
  | false =>
    by_cases hn : s.node = some n
    · simp [hn]
    · rw [mem_held_of_not_replaces hreplaces hn]
      simp [hn]

theorem Accounts.lost_run (v : Accounts s live log) (ops : List Op) (n : ℕ) :
    Lost (run o s ops log).1.2 (run o s ops log).2 n ↔ Lost s log n ∨ Overtaken o n s log ops := by
  induction ops generalizing s live log with
  | nil => exact (or_iff_left id).symm
  | cons op ops ih =>
    obtain ⟨v',_⟩ := v.call (o := o) op
    have htail := ih v'
    rw [v.lost_call op n,or_assoc] at htail
    exact htail

theorem Accounts.run (v : Accounts s live log) (ops : List Op) :
    ∃ live', Accounts (run o s ops log).1.2 live' (run o s ops log).2 := by
  induction ops generalizing s live log with
  | nil => exact ⟨live,v⟩
  | cons op ops ih => exact ih (v.call op).1

theorem accounts_newServer (identity hooked : Bool) :
    Accounts (newServer identity hooked) ∅ [] := by
  refine ⟨?_,?_,?_,?_,?_,?_⟩
  · exact fun e he => absurd he List.not_mem_nil
  · intro n hn
    cases hn
  · simp
  · simp [HostOpen]
  · simp [DHTOpen]
  · simp

/-- From a new server, whatever is called in whatever order and whatever fails: a host is open and
out of reach of `Stop` exactly if a `Start` came to its services, and perhaps failed there, while
that host was open; and it is never closed by anything that is called later. -/
theorem hosts_lost_iff (identity hooked : Bool) (ops later : List Op) (n : ℕ) :
    let out := Server.run o (newServer identity hooked) ops []
    (Lost out.1.2 out.2 n ↔ Overtaken o n (newServer identity hooked) [] ops) ∧
      (Lost out.1.2 out.2 n →
        Lost (Server.run o out.1.2 later out.2).1.2 (Server.run o out.1.2 later out.2).2 n) := by
  intro out
  have v := accounts_newServer identity hooked
  have hnone : ¬ Lost (newServer identity hooked) [] n := fun h => absurd h.1 (by simp [HostOpen])
  refine ⟨(v.lost_run ops n).trans (or_iff_right hnone),?_⟩
  intro hlost
  obtain ⟨live,v'⟩ := v.run (o := o) ops
  exact (v'.lost_run later n).mpr (.inl hlost)

/-- Two `Start`s and a `Stop`: the first host stays open. -/
theorem hosts_lost_iff_startsTwice :
    let out := Server.run calm (newServer true false)
      [.start .defaultConfig,.start .defaultConfig] []
    let last := Server.run calm out.1.2 [.stop .defaultConfig] out.2
    (Lost out.1.2 out.2 0 ↔ Overtaken calm 0 (newServer true false) []
        [.start .defaultConfig,.start .defaultConfig]) ∧
      Lost out.1.2 out.2 0 ∧ Lost last.1.2 last.2 0 := by
  intro out last
  have hlost : Lost out.1.2 out.2 0 := ⟨by unfold HostOpen; decide,by decide⟩
  obtain ⟨hiff,hlater⟩ := hosts_lost_iff (o := calm) true false
    [.start .defaultConfig,.start .defaultConfig] [.stop .defaultConfig] 0
  exact ⟨hiff,hlost,hlater hlost⟩

end Server
end P2PForge
