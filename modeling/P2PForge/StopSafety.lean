import P2PForge.Server

/-! When `Stop` is safe.
Neither the server nor its lifecycle keeps a record of what was started. Runs of the server's
methods are followed by a set of running services, and by the one bit that decides whether a
`Stop` may be called now. -/
namespace P2PForge

open Acting Lifecycle Log

def latest (log : Log) (svc : Service) : Option (Entry Call GoErr) :=
  (log.filter fun e => e.call = .start svc ∨ e.call = .stop svc).getLast?

/-- The services whose latest lifecycle call was a `Start` that returned nil. -/
def running (log : Log) : Set Service := { svc | latest log svc = some (startedEntry svc) }

theorem mem_running {log : Log} {svc : Service} :
    svc ∈ running log ↔ latest log svc = some (startedEntry svc) := Iff.rfl

@[simp] theorem running_nil : running [] = ∅ := by
  ext svc
  simp [mem_running,latest]

namespace Running

variable {R : Set Service}

def after (R : Set Service) (e : Entry Call GoErr) : Set Service :=
  match e.call with
  | .start svc => if e.err = none then insert svc R else R \ {svc}
  | .stop svc => R \ {svc}
  | _ => R

def Safe (R : Set Service) : Log → Prop
  | [] => True
  | e :: l => (∀ svc, e.call = .stop svc → svc ∈ R) ∧ Safe (after R e) l

theorem safe_append {l l' : Log} : Safe R (l ++ l') ↔ Safe R l ∧ Safe (l.foldl after R) l' := by
  induction l generalizing R with
  | nil => simp [Safe]
  | cons e l ih => simp [Safe,ih,and_assoc]

theorem after_of_not_lifecycle {e : Entry Call GoErr} (h : e.call.lifecycle = false) :
    after R e = R := by
  cases hc : e.call <;> simp [hc,Call.lifecycle] at h <;> simp [after,hc]

theorem foldl_after_lifecycle (l : Log) : l.foldl after R = (lifecycle l).foldl after R := by
  induction l generalizing R with
  | nil => rfl
  | cons e l ih =>
    rw [List.foldl_cons,ih,lifecycle_cons]
    split_ifs with he
    · rfl
    · rw [after_of_not_lifecycle (by simpa using he)]

theorem safe_lifecycle {l : Log} : Safe R l ↔ Safe R (lifecycle l) := by
  induction l generalizing R with
  | nil => rfl
  | cons e l ih =>
    rw [Safe,ih,lifecycle_cons]
    split_ifs with he
    · rfl
    · rw [after_of_not_lifecycle (by simpa using he)]
      refine and_iff_right ?_
      intro svc hsvc
      rw [hsvc] at he
      exact absurd rfl he

theorem mem_foldl_started {svcs : List Service} {svc : Service} :
    svc ∈ (svcs.map startedEntry).foldl after R ↔ svc ∈ R ∨ svc ∈ svcs := by
  induction svcs generalizing R with
  | nil => simp
  | cons a svcs ih =>
    rw [List.map_cons,List.foldl_cons,ih]
    simp only [after,startedEntry,if_true,Set.mem_insert_iff,List.mem_cons]
    tauto

theorem safe_started (svcs : List Service) : Safe R (svcs.map startedEntry) := by
  induction svcs generalizing R with
  | nil => trivial
  | cons a svcs ih => exact ⟨nofun,ih⟩

theorem mem_foldl_stops {stops : Log} {svcs : List Service} {svc : Service}
    (h : stops.map Entry.call = svcs.map .stop) :
    svc ∈ stops.foldl after R ↔ svc ∈ R ∧ svc ∉ svcs := by
  induction svcs generalizing R stops with
  | nil =>
    obtain rfl := List.map_eq_nil_iff.mp h
    simp
  | cons a svcs ih =>
    obtain ⟨e,stops,rfl,he,htail⟩ := List.map_eq_cons_iff.mp h
    rw [List.foldl_cons,ih htail]
    simp only [after,he,Set.mem_sdiff,Set.mem_singleton_iff,List.mem_cons]
    tauto

theorem safe_stops_iff {stops : Log} {svcs : List Service}
    (h : stops.map Entry.call = svcs.map .stop) :
    Safe R stops ↔ svcs.Nodup ∧ ∀ svc ∈ svcs, svc ∈ R := by
  induction svcs generalizing R stops with
  | nil =>
    obtain rfl := List.map_eq_nil_iff.mp h
    simp [Safe]
  | cons a svcs ih =>
    obtain ⟨e,stops,rfl,he,htail⟩ := List.map_eq_cons_iff.mp h
    rw [Safe,ih htail]
    simp only [after,he,Call.stop.injEq,forall_eq',Set.mem_sdiff,Set.mem_singleton_iff,
      List.nodup_cons,List.mem_cons,forall_eq_or_imp]
    constructor
    · rintro ⟨ha,hnodup,hmem⟩
      exact ⟨⟨fun hin => (hmem a hin).2 rfl,hnodup⟩,ha,fun svc hsvc => (hmem svc hsvc).1⟩
    · rintro ⟨⟨hnot,hnodup⟩,ha,hmem⟩
      exact ⟨ha,hnodup,fun svc hsvc => ⟨hmem svc hsvc,fun heq => hnot (heq ▸ hsvc)⟩⟩

end Running

open Running

theorem running_concat (log : Log) (e : Entry Call GoErr) :
    running (log ++ [e]) = after (running log) e := by
  obtain ⟨c,err⟩ := e
  ext svc
  by_cases he : c = .start svc ∨ c = .stop svc
  · have hlatest : latest (log ++ [⟨c,err⟩]) svc = some ⟨c,err⟩ := by simp [latest,he]
    rw [mem_running,hlatest]
    rcases he with rfl | rfl
    · cases err <;> simp [after,startedEntry]
    · simp [after,startedEntry]
  · have hlatest : latest (log ++ [⟨c,err⟩]) svc = latest log svc := by simp [latest,he]
    rw [mem_running,hlatest,← mem_running]
    cases c with
    | start a =>
      have hne : svc ≠ a := fun h => he (.inl (congrArg Call.start h.symm))
      cases err <;> simp [after,hne]
    | stop a =>
      have hne : svc ≠ a := fun h => he (.inr (congrArg Call.stop h.symm))
      simp [after,hne]
    | _ => rfl

theorem running_append (log l : Log) : running (log ++ l) = l.foldl after (running log) := by
  induction l generalizing log with
  | nil =>
    rw [List.append_nil]
    rfl
  | cons e l ih => rw [List.append_cons,ih,running_concat,List.foldl_cons]

theorem safe_iff (log l : Log) :
    Safe (running log) l ↔ ∀ pre svc err post, l = pre ++ ⟨.stop svc,err⟩ :: post →
      latest (log ++ pre) svc = some (startedEntry svc) := by
  induction l generalizing log with
  | nil => simp [Safe]
  | cons e l ih =>
    rw [Safe,← running_concat,ih]
    constructor
    · rintro ⟨hfirst,hrest⟩ pre svc err post heq
      cases pre with
      | nil =>
        obtain ⟨rfl,rfl⟩ := List.cons_eq_cons.mp heq
        rw [List.append_nil]
        exact hfirst svc rfl
      | cons e' pre =>
        obtain ⟨rfl,htail⟩ := List.cons_eq_cons.mp heq
        rw [List.append_cons]
        exact hrest pre svc err post htail
    · intro hall
      constructor
      · intro svc hsvc
        have hfirst := hall [] svc e.err l (by rw [← hsvc]; rfl)
        rwa [List.append_nil] at hfirst
      · intro pre svc err post heq
        rw [← List.append_cons]
        exact hall (e :: pre) svc err post (by rw [heq]; rfl)

/-- The methods of a server, each with the configuration as it is when it is called. -/
inductive Op
  | handle (id : String)
  | addService (svc : Service)
  | start (cfg : Config)
  | stop (cfg : Config)

namespace Server

variable (o : Outside)

def newServer (identity hooked : Bool) : Server := ⟨[],[],identity,hooked,none,none,0⟩

def call (s : Server) : Op → Acting Call GoErr (Outcome × Server)
  | .handle id => return (.returned none,{ s with handlers := s.handlers.insert id })
  | .addService svc => return (.returned none,{ s with services := s.services ++ [svc] })
  | .start cfg => do
    let out ← start o cfg s
    return (.returned out.1,out.2)
  | .stop cfg => do
    let out ← stop o cfg s
    return (out,s)

def run : Server → List Op → Acting Call GoErr (List Outcome × Server)
  | s,[] => return ([],s)
  | s,op :: ops => do
    let out ← call o s op
    let rest ← run out.2 ops
    return (out.1 :: rest.1,rest.2)

/-- No `Stop` dereferences a nil host, and a service is stopped only when its latest lifecycle
call was a `Start` that returned nil. -/
structure StopsSafely (outcomes : List Outcome) (log : Log) : Prop where
  host : .nilHost ∉ outcomes
  services : ∀ pre svc err post, log = pre ++ ⟨.stop svc,err⟩ :: post →
    latest pre svc = some ⟨.start svc,none⟩

/-- Whether the services are up: the latest of the calls that matter to them was a `Start` that
returned nil. What matters is a `Start` that gets as far as the services, a `Stop`, and a new
service. -/
def track (up : Bool) : Op → Outcome → Bool
  | .start _,.returned none => true
  | .start _,.returned (some (.wrap text _)) => if text = "start services: " then false else up
  | .stop _,_ | .addService _,_ => false
  | _,_ => up

/-- The services that `StartAll` tries, up to the one whose `Start` is answered with an error, if
there is one. -/
def refusedAt (log : Log) : List Service → Option (List Service)
  | [] => none
  | svc :: rest =>
    match o.answer log (.start svc) with
    | some _ => some [svc]
    | none => (refusedAt (log ++ [startedEntry svc]) rest).map (svc :: ·)

/-- The log with which `Start` comes to its services, if it does: a server that has none would
return nil then. -/
def reached (cfg : Config) (s : Server) (log : Log) : Option Log :=
  match start o cfg { s with services := [] } log with
  | ((none,_),log') => some log'
  | ((some _,_),_) => none

/-- The condition of each call. A `Start` must not try one service twice if one of them fails. A
`Stop` needs a host to remove its handlers from, and services that are up and of which no two are
the same. -/
def Careful (up : Bool) (s : Server) (log : Log) : Op → Prop
  | .handle _ | .addService _ => True
  | .start cfg => ∀ tried, (reached o cfg s log).bind (refusedAt o · s.services) = some tried →
    tried.Nodup
  | .stop _ => (s.handlers = [] ∨ s.host ≠ none) ∧
    (s.services = [] ∨ up = true ∧ s.services.Nodup)

def EachCareful (up : Bool) (s : Server) (log : Log) : List Op → Prop
  | [] => True
  | op :: ops =>
    let out := call o s op log
    Careful o up s log op ∧ EachCareful (track up op out.1.1) out.1.2 out.2 ops

/-- How the set of running services goes with the bit: they are all running if it is set, and
if it is not there is none, or one that cannot be stopped now. -/
structure Follows (up : Bool) (svcs : List Service) (R : Set Service) : Prop where
  whenUp : up = true → ∀ svc ∈ svcs, svc ∈ R
  whenDown : up = false → svcs = [] ∨ ¬ svcs.Nodup ∨ ∃ svc ∈ svcs, svc ∉ R
  known : ∀ svc ∈ R, svc ∈ svcs

variable {R : Set Service} {up : Bool} {svcs : List Service}

theorem Follows.addService (h : Follows up svcs R) (svc : Service) :
    Follows false (svcs ++ [svc]) R := by
  refine ⟨nofun,fun _ => .inr ?_,fun a ha => List.mem_append_left _ (h.known a ha)⟩
  by_cases hsvc : svc ∈ R
  · refine .inl fun hnodup => ?_
    have hne := (List.nodup_append.mp hnodup).2.2 svc (h.known svc hsvc)
    exact hne svc (List.mem_singleton_self svc) rfl
  · exact .inr ⟨svc,by simp,hsvc⟩

theorem Follows.started (h : Follows up svcs R) :
    Follows true svcs ((svcs.map startedEntry).foldl after R) := by
  refine ⟨fun _ svc hsvc => mem_foldl_started.mpr (.inr hsvc),nofun,fun svc hsvc => ?_⟩
  rcases mem_foldl_started.mp hsvc with hold | hnew
  · exact h.known svc hold
  · exact hnew

/-- Services that may be stopped now are those that are up and of which no two are the same. -/
theorem Follows.stoppable_iff (h : Follows up svcs R) :
    (svcs.reverse.Nodup ∧ ∀ svc ∈ svcs.reverse, svc ∈ R) ↔ svcs = [] ∨ up = true ∧ svcs.Nodup := by
  simp only [List.nodup_reverse,List.mem_reverse]
  constructor
  · rintro ⟨hnodup,hall⟩
    cases hup : up with
    | true => exact .inr ⟨rfl,hnodup⟩
    | false =>
      rcases h.whenDown hup with hnil | hdup | ⟨svc,hsvc,hnot⟩
      · exact .inl hnil
      · exact absurd hnodup hdup
      · exact absurd (hall svc hsvc) hnot
  · rintro (rfl | ⟨hup,hnodup⟩)
    · simp
    · exact ⟨hnodup,h.whenUp hup⟩

theorem Follows.stopped (h : Follows up svcs R) {stops : Log}
    (hstops : stops.map Entry.call = svcs.reverse.map .stop) :
    Follows false svcs (stops.foldl after R) := by
  refine ⟨nofun,fun _ => ?_,fun svc hsvc => h.known svc ((mem_foldl_stops hstops).mp hsvc).1⟩
  cases svcs with
  | nil => exact .inl rfl
  | cons svc svcs =>
    refine .inr (.inr ⟨svc,List.mem_cons_self,fun hsvc => ?_⟩)
    exact ((mem_foldl_stops hstops).mp hsvc).2 (by simp)

section Rollback

variable {pre post : List Service} {svc : Service} {e : GoErr} {stops : Log}
  (hstops : stops.map Entry.call = pre.reverse.map .stop)

include hstops

/-- The services before the one that failed can be stopped if no two of them all are the
same. -/
theorem safe_rollback_iff :
    Safe R (pre.map startedEntry ++ ⟨.start svc,some e⟩ :: stops) ↔ (pre ++ [svc]).Nodup := by
  rw [safe_append,and_iff_right (safe_started pre),Safe,and_iff_right nofun,safe_stops_iff hstops]
  simp only [after,reduceCtorEq,if_false,Set.mem_sdiff,Set.mem_singleton_iff,mem_foldl_started,
    List.nodup_reverse,List.mem_reverse,List.nodup_append,List.nodup_singleton,List.mem_singleton]
  constructor
  · rintro ⟨hnodup,hall⟩
    refine ⟨hnodup,trivial,?_⟩
    rintro a ha _ rfl heq
    exact (hall a ha).2 heq
  · rintro ⟨hnodup,_,hne⟩
    exact ⟨hnodup,fun a ha => ⟨.inr ha,hne a ha svc rfl⟩⟩

theorem Follows.rolledBack (h : Follows up (pre ++ svc :: post) R) :
    Follows false (pre ++ svc :: post)
      ((pre.map startedEntry ++ ⟨.start svc,some e⟩ :: stops).foldl after R) := by
  have hmem : ∀ a, a ∈ (pre.map startedEntry ++ ⟨.start svc,some e⟩ :: stops).foldl after R →
      (a ∈ R ∨ a ∈ pre) ∧ a ≠ svc := by
    intro a ha
    rw [List.foldl_append,List.foldl_cons,mem_foldl_stops hstops] at ha
    simp only [after,reduceCtorEq,if_false,Set.mem_sdiff,Set.mem_singleton_iff,
      mem_foldl_started] at ha
    exact ha.1
  refine ⟨nofun,fun _ => .inr (.inr ⟨svc,by simp,fun hin => (hmem svc hin).2 rfl⟩),?_⟩
  intro a ha
  rcases (hmem a ha).1 with hR | hpre
  · exact h.known a hR
  · exact List.mem_append_left _ hpre

end Rollback

theorem track_start_early {cfg : Config} {e : GoErr}
    (he : ∀ cause, some e ≠ some (GoErr.wrap "start services: " cause)) :
    track up (.start cfg) (.returned (some e)) = up := by
  cases e with
  | wrap text cause =>
    have htext : text ≠ "start services: " := by
      rintro rfl
      exact he cause rfl
    simp [track,htext]
  | _ => rfl

theorem refusedAt_cons {log : Log} {svc : Service} (h : o.answer log (.start svc) = none)
    (rest : List Service) : refusedAt o log (svc :: rest) =
      (refusedAt o (log ++ [startedEntry svc]) rest).map (svc :: ·) := by
  rw [refusedAt,h]

theorem refusedAt_of_answered {pre post : List Service} {svc : Service} {e : GoErr}
    {stops log : Log}
    (h : Answered o.answer log (pre.map startedEntry ++ ⟨.start svc,some e⟩ :: stops)) :
    refusedAt o log (pre ++ svc :: post) = some (pre ++ [svc]) := by
  induction pre generalizing log with
  | nil =>
    have hsvc : o.answer log (.start svc) = some e := h.head
    rw [List.nil_append,refusedAt,hsvc]
    rfl
  | cons a pre ih =>
    rw [List.cons_append,refusedAt_cons o h.head,ih h.tail]
    rfl

theorem refusedAt_of_started {svcs : List Service} {log : Log}
    (h : Answered o.answer log (svcs.map startedEntry)) : refusedAt o log svcs = none := by
  induction svcs generalizing log with
  | nil => rfl
  | cons a svcs ih =>
    rw [refusedAt_cons o h.head,ih h.tail]
    rfl

/-- `Start` is that of a server without services, and then the services. -/
theorem start_eq (cfg : Config) (s : Server) :
    start o cfg s = (do
      let out ← start o cfg { s with services := [] }
      let started : Server := { out.2 with services := s.services }
      match out.1 with
      | some e => return (some e,started)
      | none =>
        checking (startAll o s.services)
          (fun e => do
            performAll o.answer (closeCalls s.hosts)
            return (some (.wrap "start services: " e),started))
          (return (none,started))) := by
  simp only [start,checking_bind,bind_assoc,pure_bind,startAll,startFrom]
  rfl

/-- What a `Start` does to its services: nothing if it fails before it comes to them, and otherwise
it starts them all, or up to the one that is refused. -/
inductive Serves (svcs : List Service) : Option (List Service) → Option GoErr → Log → Prop
  | early {e : GoErr} (he : ∀ cause, some e ≠ some (.wrap "start services: " cause)) :
    Serves svcs none (some e) []
  | all : Serves svcs none none (svcs.map startedEntry)
  | refused {pre svc post e cause stops} (hsvcs : svcs = pre ++ svc :: post)
      (hstops : stops.map Entry.call = pre.reverse.map .stop) :
    Serves svcs (some (pre ++ [svc])) (some (.wrap "start services: " cause))
      (pre.map startedEntry ++ ⟨.start svc,some e⟩ :: stops)

theorem serves_services (svcs : List Service) (h : ℕ) (started : Server) (log : Log) :
    let out := checking (startAll o svcs)
      (fun e => do
        performAll o.answer (closeCalls h)
        return (some (.wrap "start services: " e),started))
      (return (none,started)) log
    ∃ l, out.2 = log ++ l ∧ out.1.2.services = started.services ∧
      Serves svcs (refusedAt o log svcs) out.1.1 (lifecycle l) := by
  intro out
  obtain ⟨l,hlog,horder⟩ := adds_startFrom o [] svcs log
  have hanswered := (honest_startFrom o [] svcs).answered hlog
  have hlife : lifecycle l = l := List.filter_eq_self.mpr (lifecycle_startsInOrder o horder)
  cases herr : (startFrom o [] svcs log).1 with
  | none =>
    have hout : out = ((none,started),log ++ l) := by
      rw [← hlog]
      simp only [out,startAll,checking_apply,herr]
      rfl
    rw [herr] at horder
    cases horder
    rw [hout]
    refine ⟨_,rfl,rfl,?_⟩
    rw [refusedAt_of_started o hanswered,hlife]
    exact .all
  | some e =>
    obtain ⟨lclose,hlclose,hcalls⟩ := adds_performAll (o := o.answer) (closeCalls h) (log ++ l)
    have hout : out = ((some (.wrap "start services: " e),started),log ++ l ++ lclose) := by
      rw [← hlclose,← hlog]
      simp only [out,startAll,checking_apply,herr]
      rfl
    have hquiet : lifecycle lclose = [] :=
      lifecycle_eq_nil (tally_closeCalls hcalls).2.2.2.2.2.2
    rw [herr] at horder
    obtain ⟨pre,svc,post,cause,stops,rfl,rfl,hstops⟩ := horder.failed
    rw [List.append_nil] at hstops
    rw [hout]
    refine ⟨_,List.append_assoc ..,rfl,?_⟩
    rw [lifecycle_append,hlife,hquiet,List.append_nil,refusedAt_of_answered o hanswered]
    exact .refused rfl hstops

theorem serves_start (cfg : Config) (s : Server) (log : Log) :
    ∃ l, (start o cfg s log).2 = log ++ l ∧ (start o cfg s log).1.2.services = s.services ∧
      Serves s.services ((reached o cfg s log).bind (refusedAt o · s.services))
        (start o cfg s log).1.1 (lifecycle l) := by
  obtain ⟨l,hlog,hall⟩ := adds_start o cfg { s with services := [] } log
  generalize hbare : start o cfg { s with services := [] } log = bare at hlog hall
  obtain ⟨⟨err,s'⟩,log'⟩ := bare
  dsimp only at hlog hall
  subst hlog
  have hearly : lifecycle l = [] ∧ ∀ cause, err ≠ some (.wrap "start services: " cause) := by
    cases err with
    | none => exact ⟨(hall.kept rfl).2.2.1,nofun⟩
    | some e =>
      rcases hall.services (Option.some_ne_none e) with hnone | ⟨cause,_,horder⟩
      · exact hnone
      · obtain ⟨pre,svc,post,_,_,hsvcs,_⟩ := horder.failed
        simp at hsvcs
  rw [start_eq,reached,hbare]
  simp only [bind,StateT.bind,hbare]
  cases err with
  | none =>
    obtain ⟨l',hlog',hstarted,hserves⟩ :=
      serves_services o s.services s.hosts { s' with services := s.services } (log ++ l)
    refine ⟨l ++ l',hlog'.trans (List.append_assoc ..),hstarted,?_⟩
    rw [lifecycle_append,hearly.1,List.nil_append]
    exact hserves
  | some e =>
    refine ⟨l,rfl,rfl,?_⟩
    rw [hearly.1]
    exact .early hearly.2

/-- One call is safe exactly if it meets its condition, and then the bit goes on to say what it
says of the running services. -/
theorem call_iff (s : Server) (op : Op) (log : Log) (h : Follows up s.services R) :
    ∃ l, (call o s op log).2 = log ++ l ∧
      (((call o s op log).1.1 ≠ .nilHost ∧ Safe R l) ↔ Careful o up s log op) ∧
      (Careful o up s log op → Follows (track up op (call o s op log).1.1)
        (call o s op log).1.2.services (l.foldl after R)) := by
  cases op with
  | handle id =>
    exact ⟨[],(List.append_nil log).symm,iff_of_true ⟨nofun,trivial⟩ trivial,fun _ => h⟩
  | addService svc =>
    exact ⟨[],(List.append_nil log).symm,iff_of_true ⟨nofun,trivial⟩ trivial,
      fun _ => h.addService svc⟩
  | start cfg =>
    obtain ⟨l,hlog,hkeeps,hserves⟩ := serves_start o cfg s log
    refine ⟨l,hlog,?_⟩
    have hcall : call o s (.start cfg) log =
        ((.returned (start o cfg s log).1.1,(start o cfg s log).1.2),(start o cfg s log).2) := rfl
    rw [hcall,safe_lifecycle,foldl_after_lifecycle,hkeeps,Careful]
    revert hserves
    generalize (reached o cfg s log).bind (refusedAt o · s.services) = refusal
    generalize (start o cfg s log).1.1 = err
    generalize lifecycle l = starts
    intro hserves
    cases hserves with
    | early he =>
      rw [track_start_early he]
      exact ⟨iff_of_true ⟨nofun,trivial⟩ nofun,fun _ => h⟩
    | all => exact ⟨iff_of_true ⟨nofun,safe_started _⟩ nofun,fun _ => h.started⟩
    | @refused pre svc post e cause stops hsvcs hstops =>
      rw [safe_rollback_iff hstops]
      rw [hsvcs] at h ⊢
      refine ⟨?_,fun _ => h.rolledBack hstops⟩
      simp
  | stop cfg =>
    obtain ⟨l,hlog,hstop⟩ := adds_stop o cfg s log
    refine ⟨l,hlog,?_⟩
    have hcall : call o s (.stop cfg) log =
        (((stop o cfg s log).1,s),(stop o cfg s log).2) := rfl
    rw [hcall,Careful]
    rcases hstop with ⟨hout,hnil,rfl⟩ | ⟨hout,hhost,hstops⟩
    · rw [hout]
      exact ⟨iff_of_false (fun hsafe => hsafe.1 rfl) fun hcareful => hnil hcareful.1,
        fun hcareful => absurd hcareful.1 hnil⟩
    · rw [hout,safe_lifecycle,foldl_after_lifecycle,safe_stops_iff hstops,h.stoppable_iff]
      refine ⟨?_,fun _ => h.stopped hstops⟩
      simp [hhost]

theorem adds_run (ops : List Op) (s : Server) : Adds (run o s ops) fun _ _ => True := by
  induction ops generalizing s with
  | nil => exact adds_pure trivial
  | cons op ops ih =>
    have hall : Follows true s.services { svc | svc ∈ s.services } :=
      ⟨fun _ _ hsvc => hsvc,nofun,fun _ hsvc => hsvc⟩
    have hcall : Adds (call o s op) fun _ _ => True := by
      intro log
      obtain ⟨l,hlog,_⟩ := call_iff o s op log hall
      exact ⟨l,hlog,trivial⟩
    exact hcall.bind fun out _ _ => (ih out.2).bind fun _ _ _ => adds_pure trivial

theorem run_iff (ops : List Op) (s : Server) (log : Log) (h : Follows up s.services (running log)) :
    ∃ l, (run o s ops log).2 = log ++ l ∧
      ((.nilHost ∉ (run o s ops log).1.1 ∧ Safe (running log) l) ↔ EachCareful o up s log ops) := by
  induction ops generalizing up s log with
  | nil => exact ⟨[],by simp [run,pure,StateT.pure],by simp [run,pure,StateT.pure,Safe,EachCareful]⟩
  | cons op ops ih =>
    obtain ⟨l,hlog,hiff,hnext⟩ := call_iff o s op log h
    set out := call o s op log with hout
    have hrun : run o s (op :: ops) log =
        ((out.1.1 :: (run o out.1.2 ops out.2).1.1,(run o out.1.2 ops out.2).1.2),
          (run o out.1.2 ops out.2).2) := rfl
    have heach : EachCareful o up s log (op :: ops) ↔
        Careful o up s log op ∧ EachCareful o (track up op out.1.1) out.1.2 out.2 ops := Iff.rfl
    rw [hrun,heach]
    by_cases hcareful : Careful o up s log op
    · have hfollows := hnext hcareful
      rw [← running_append,← hlog] at hfollows
      obtain ⟨l',hlog',hiff'⟩ := ih out.1.2 out.2 hfollows
      refine ⟨l ++ l',by rw [← List.append_assoc,← hlog]; exact hlog',?_⟩
      rw [safe_append,← running_append,← hlog,← hiff,← hiff',List.mem_cons,not_or]
      tauto
    · obtain ⟨l',hlog',-⟩ := adds_run o ops out.1.2 out.2
      refine ⟨l ++ l',by rw [← List.append_assoc,← hlog]; exact hlog',?_⟩
      refine iff_of_false ?_ fun hall => hcareful hall.1
      rintro ⟨hhost,hsafe⟩
      refine hcareful (hiff.mp ⟨fun hnil => hhost ?_,(safe_append.mp hsafe).1⟩)
      exact hnil ▸ List.mem_cons_self

/-- From a new server, whatever is called in whatever order and whatever fails: `Stop` is safe
in the run exactly if each call of it meets its condition. -/
theorem run_stopsSafely_iff (identity hooked : Bool) (ops : List Op) :
    StopsSafely (run o (newServer identity hooked) ops []).1.1
        (run o (newServer identity hooked) ops []).2 ↔
      EachCareful o false (newServer identity hooked) [] ops := by
  have hnew : Follows false (newServer identity hooked).services (running []) := by
    rw [running_nil]
    exact ⟨nofun,fun _ => .inl rfl,fun _ h => h.elim⟩
  obtain ⟨l,hlog,hiff⟩ := run_iff o ops (newServer identity hooked) [] hnew
  rw [← hiff,safe_iff,hlog]
  exact ⟨fun h => ⟨h.host,h.services⟩,fun h => ⟨h.1,h.2⟩⟩

def calm : Outside := ⟨fun _ => "",fun _ _ => none⟩

def stopWithHandler : List Op := [.handle "/echo/1.0.0",.stop .defaultConfig]

def stopWithService : List Op := [.addService 0,.stop .defaultConfig]

/-- `Stop` without a `Start` dereferences a nil host if there is a handler, and if there is none
stops a service that was never started. -/
theorem stop_unstarted :
    ¬ StopsSafely (run calm (newServer true false) stopWithHandler []).1.1
        (run calm (newServer true false) stopWithHandler []).2 ∧
      ¬ StopsSafely (run calm (newServer true false) stopWithService []).1.1
        (run calm (newServer true false) stopWithService []).2 := by
  constructor
  · intro h
    exact h.host (.tail _ (.head _))
  · intro h
    have hstopped := h.services [⟨.wait,none⟩] 0 none [] (by decide)
    exact absurd hstopped (by decide)

end Server
end P2PForge
