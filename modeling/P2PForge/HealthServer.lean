import P2PForge.Interleaving

/-! The server behind the health checks.
`Start` puts a new HTTP server into the one field that `Stop` reads, before it knows whether it can
listen, and leaves a goroutine behind that reads this field once more to serve the listener. Starts,
stops and the goroutines interleave, so that a listener may be served by the server of a later
`Start`; the steps of `Serve` and `Shutdown` are those of net/http. -/
namespace P2PForge.Health

open Interleaving

/-- How far a `Start` has come, and after it the goroutine, with the server it serves on. -/
inductive Phase
  | listen
  | refused (err : String)
  | serve
  | track (j : ℕ)
  | accept (j : ℕ)
  | ended (j : ℕ)
  deriving DecidableEq

def Phase.server : Phase → Option ℕ
  | .listen | .refused _ | .serve => none
  | .track j | .accept j | .ended j => some j

structure HTTPServer where
  inShutdown : Bool
  phase : Phase
  listening : Bool
  deriving DecidableEq

/-- The field that `Stop` and the goroutines read, and all servers made so far. -/
structure HealthCheck where
  server : Option ℕ
  servers : List HTTPServer
  deriving DecidableEq

def HealthCheck.shuttingDown (h : HealthCheck) (j : ℕ) : Bool :=
  h.servers[j]?.any HTTPServer.inShutdown

/-- The next step of `Start` behind the new server, or of its goroutine. `Serve` does not begin on a
server that is shut down, and `Accept` waits until it fails or its listener is closed; either way
the listener is closed in the end. -/
def HTTPServer.advance (h : HealthCheck) (s : HTTPServer) (fault : Option String) :
    Option HTTPServer :=
  match s.phase with
  | .listen =>
    match fault with
    | some err => some { s with phase := .refused err }
    | none => some { s with phase := .serve,listening := true }
  | .serve => h.server.map fun j => { s with phase := .track j }
  | .track j =>
    if h.shuttingDown j then some { s with phase := .ended j,listening := false }
    else some { s with phase := .accept j }
  | .accept j =>
    if ¬ s.listening then some { s with phase := .ended j }
    else if fault.isSome then some { s with phase := .ended j,listening := false }
    else none
  | .refused _ | .ended _ => none

/-- Where a call stands. A `Start` that has stored its server goes on as its goroutine. -/
inductive Point
  | start
  | started (k : ℕ)
  | stop
  | shutdown
  | mark (j : ℕ)
  | closeListeners (j : ℕ)
  | wait (j : ℕ)
  | returned (err : Option String)
  deriving DecidableEq

def HTTPServer.closeOn (j : ℕ) (s : HTTPServer) : HTTPServer :=
  if s.phase = .accept j then { s with listening := false } else s

/-- `Start` and `Stop`, with the steps of `Shutdown`: the mark, the listeners that `Serve` has
registered, and the wait for `Serve` and the connections. -/
def prog (h : HealthCheck) (p : Point) (fault : Option String) : Option (HealthCheck × Point) :=
  match p with
  | .start => some (⟨some h.servers.length,h.servers ++ [⟨false,.listen,false⟩]⟩,
      .started h.servers.length)
  | .started k =>
    (h.servers[k]?.bind fun s => s.advance h fault).map fun s' =>
      ({ h with servers := h.servers.set k s' },.started k)
  | .stop => if h.server = none then some (h,.returned none) else some (h,.shutdown)
  -- `Stop` reads the field again
  | .shutdown => h.server.map fun j => (h,.mark j)
  | .mark j =>
    some ({ h with servers := h.servers.modify j fun s => { s with inShutdown := true } },
      .closeListeners j)
  | .closeListeners j =>
    some ({ h with servers := h.servers.map (HTTPServer.closeOn j) },.wait j)
  | .wait j =>
    if h.servers.any fun s => s.phase = .accept j then none else some (h,.returned fault)
  | .returned _ => none

def newHealthCheck : HealthCheck := ⟨none,[]⟩

/-- What happens to the servers: the goroutine of a `Start` turns to a server with its listener, a
`Serve` fails by itself, a `Stop` turns to a server. -/
inductive Deed
  | serves (k j : ℕ)
  | broke (k : ℕ)
  | stop (j : ℕ)
  deriving DecidableEq

def Deed.about : Deed → ℕ
  | .serves k _ | .broke k | .stop k => k

def HTTPServer.deeds (h : HealthCheck) (s : HTTPServer) (k : ℕ) (fault : Option String) :
    List Deed :=
  match s.phase with
  | .serve => h.server.toList.map (.serves k)
  | .accept _ => if s.listening ∧ fault ≠ none then [.broke k] else []
  | _ => []

def deeds (h : HealthCheck) (p : Point) (fault : Option String) : List Deed :=
  match p with
  | .started k => h.servers[k]?.toList.flatMap fun s => s.deeds h k fault
  | .shutdown => h.server.toList.map .stop
  | _ => []

def Begins : Event Point (Option String) → Prop
  | .spawn p => p = .start ∨ p = .stop
  | .advance _ _ => True

/-- What the deeds so far say of a `Start` and its listener, by how far it has come. -/
structure Tells (seen : List Deed) (k : ℕ) (s : HTTPServer) : Prop where
  serves : ∀ j, .serves k j ∈ seen ↔ s.phase.server = some j
  broke : .broke k ∈ seen → ∃ j, s.phase = .ended j
  listening : match s.phase with
    | .listen | .refused _ => s.listening = false
    | .serve | .track _ => s.listening = true
    | .accept j => s.listening = true ∨ .stop j ∈ seen
    | .ended j => s.listening = false ∧ (.broke k ∈ seen ∨ .stop j ∈ seen)

def Closed (servers : List HTTPServer) (j : ℕ) : Prop :=
  (∀ s, servers[j]? = some s → s.inShutdown = true) ∧
    ∀ (k : ℕ) (s : HTTPServer), servers[k]? = some s → s.phase = .accept j → s.listening = false

/-- The invariant of every run of starts, stops and goroutines. A `Stop` that has turned to a server
is on its way or has shut it down, and before that `Serve` finds no mark. -/
structure Sound (seen : List Deed) (sys : System HealthCheck Point) : Prop where
  latest : ∀ {j}, sys.shared.server = some j → j + 1 = sys.shared.servers.length
  unstarted : sys.shared.server = none → sys.shared.servers = []
  known : ∀ {d}, d ∈ seen → d.about < sys.shared.servers.length
  marking : ∀ {j}, .mark j ∈ sys.threads → .stop j ∈ seen
  closing : ∀ {j}, .closeListeners j ∈ sys.threads → .stop j ∈ seen ∧
    ∀ s, sys.shared.servers[j]? = some s → s.inShutdown = true
  stopped : ∀ {j}, .stop j ∈ seen → .mark j ∈ sys.threads ∨ .closeListeners j ∈ sys.threads ∨
    Closed sys.shared.servers j
  shutdown : ∀ {j s}, sys.shared.servers[j]? = some s → s.inShutdown = true → .stop j ∈ seen
  owned : ∀ {k s}, sys.shared.servers[k]? = some s → .started k ∈ sys.threads
  tells : ∀ {k s}, sys.shared.servers[k]? = some s → Tells seen k s

variable {seen seen' : List Deed} {threads : List Point} {j k : ℕ} {s s' : HTTPServer}
  {h h' : HealthCheck} {p p' : Point} {fault : Option String}

theorem sound_new : Sound [] ⟨newHealthCheck,[]⟩ := by
  constructor <;> simp [newHealthCheck]

theorem Tells.congr (v : Tells seen k s) (hserves : ∀ j, .serves k j ∈ seen' ↔ .serves k j ∈ seen)
    (hbroke : .broke k ∈ seen' ↔ .broke k ∈ seen)
    (hstop : ∀ j, .stop j ∈ seen → .stop j ∈ seen') : Tells seen' k s := by
  refine ⟨fun j => (hserves j).trans (v.serves j),fun h => v.broke (hbroke.mp h),?_⟩
  have hlistening := v.listening
  split <;> simp_all
  · exact hlistening.imp_right (hstop _)
  · exact hlistening.2.imp_right (hstop _)

theorem Tells.advance (v : Tells seen k s) (hmarked : ∀ j, h.shuttingDown j = true → .stop j ∈ seen)
    (hadvance : s.advance h fault = some s') : Tells (seen ++ s.deeds h k fault) k s' := by
  obtain ⟨hserves,hbroke,hlistening⟩ := v
  cases hphase : s.phase with
  | listen =>
    rw [hphase] at hserves hbroke
    cases fault with
    | some err =>
      simp only [HTTPServer.advance,hphase,Option.some.injEq] at hadvance
      subst hadvance
      constructor <;> simp_all [HTTPServer.deeds,Phase.server]
    | none =>
      simp only [HTTPServer.advance,hphase,Option.some.injEq] at hadvance
      subst hadvance
      constructor <;> simp_all [HTTPServer.deeds,Phase.server]
  | serve =>
    simp only [HTTPServer.advance,hphase,Option.map_eq_some_iff] at hadvance
    obtain ⟨j,hj,rfl⟩ := hadvance
    have hdeeds : s.deeds h k fault = [.serves k j] := by simp [HTTPServer.deeds,hphase,hj]
    rw [hphase] at hserves hbroke hlistening
    rw [hdeeds]
    refine ⟨fun l => ?_,fun hb => absurd (hbroke (by simpa using hb)) (by simp),hlistening⟩
    have hnone : .serves k l ∉ seen := fun hl => nomatch (hserves l).mp hl
    simp [hnone,Phase.server,eq_comm]
  | track j =>
    simp only [HTTPServer.advance,hphase] at hadvance
    split_ifs at hadvance with hdown <;> cases hadvance
    · have hstop := hmarked j hdown
      constructor <;> simp_all [HTTPServer.deeds,Phase.server]
    · constructor <;> simp_all [HTTPServer.deeds,Phase.server]
  | accept j =>
    simp only [HTTPServer.advance,hphase] at hadvance
    cases fault with
    | none =>
      split_ifs at hadvance with hclosed hfault <;> cases hadvance
      · cases hfault
      · constructor <;> simp_all [HTTPServer.deeds,Phase.server]
    | some err =>
      split_ifs at hadvance with hclosed <;> cases hadvance <;>
        constructor <;> simp_all [HTTPServer.deeds,Phase.server]
  | refused err => simp [HTTPServer.advance,hphase] at hadvance
  | ended j => simp [HTTPServer.advance,hphase] at hadvance

theorem mem_deeds {d : Deed} (hd : d ∈ s.deeds h k fault) :
    d = .broke k ∨ ∃ j, d = .serves k j := by
  unfold HTTPServer.deeds at hd
  split at hd
  · obtain ⟨j,_,rfl⟩ := List.mem_map.mp hd
    exact .inr ⟨j,rfl⟩
  · split_ifs at hd
    · exact .inl (List.mem_singleton.mp hd)
    · cases hd
  · cases hd

theorem advance_cases (hadvance : s.advance h fault = some s') : s'.inShutdown = s.inShutdown ∧
    ∀ j, s'.phase = .accept j → h.shuttingDown j = false := by
  cases hphase : s.phase with
  | listen =>
    cases fault <;> simp [HTTPServer.advance,hphase] at hadvance <;> subst hadvance <;> simp
  | serve =>
    simp only [HTTPServer.advance,hphase,Option.map_eq_some_iff] at hadvance
    obtain ⟨j,_,rfl⟩ := hadvance
    simp
  | track j =>
    simp only [HTTPServer.advance,hphase] at hadvance
    split_ifs at hadvance with hdown <;> cases hadvance <;> simp [hdown]
  | accept j =>
    simp only [HTTPServer.advance,hphase] at hadvance
    split_ifs at hadvance <;> cases hadvance <;> simp
  | refused err => simp [HTTPServer.advance,hphase] at hadvance
  | ended j => simp [HTTPServer.advance,hphase] at hadvance

theorem mem_set_of_ne {i : ℕ} {q : Point} (hi : threads[i]? = some p) (hq : q ∈ threads)
    (hne : q ≠ p) : q ∈ threads.set i p' := by
  obtain ⟨j,hj⟩ := List.mem_iff_getElem?.mp hq
  have hji : i ≠ j := by
    rintro rfl
    exact hne (Option.some.inj (hj.symm.trans hi))
  exact List.mem_of_getElem? ((List.getElem?_set_ne hji).trans hj)

theorem mem_set_self {i : ℕ} (hi : threads[i]? = some p) : p' ∈ threads.set i p' :=
  List.mem_of_getElem? (List.getElem?_set_self (List.getElem?_eq_some_iff.mp hi).1)

theorem mem_of_mem_set {i : ℕ} {q : Point} (hq : q ∈ threads.set i p') (hne : q ≠ p') :
    q ∈ threads :=
  (List.mem_or_eq_of_mem_set hq).resolve_right hne

def Point.watched : Point → Bool
  | .started _ | .mark _ | .closeListeners _ => true
  | _ => false

namespace Sound

variable {sys : System HealthCheck Point} (v : Sound seen sys) {i : ℕ}
include v

theorem shuttingDown (hj : sys.shared.shuttingDown j = true) : .stop j ∈ seen := by
  unfold HealthCheck.shuttingDown at hj
  cases hs : sys.shared.servers[j]? with
  | none =>
    rw [hs] at hj
    cases hj
  | some s =>
    rw [hs] at hj
    exact v.shutdown hs hj

theorem rethread {threads : List Point}
    (hthreads : ∀ q : Point, q.watched = true → (q ∈ threads ↔ q ∈ sys.threads)) :
    Sound seen { sys with threads := threads } where
  latest := v.latest
  unstarted := v.unstarted
  known := v.known
  marking hq := v.marking ((hthreads _ rfl).mp hq)
  closing hq := v.closing ((hthreads _ rfl).mp hq)
  stopped hstop := by
    rw [hthreads _ rfl,hthreads _ rfl]
    exact v.stopped hstop
  shutdown := v.shutdown
  owned hk := (hthreads _ rfl).mpr (v.owned hk)
  tells := v.tells

theorem spawn (hp : p = .start ∨ p = .stop) :
    Sound seen { sys with threads := sys.threads ++ [p] } := by
  apply v.rethread
  intro q hq
  rw [List.mem_append,or_iff_left]
  intro hlast
  rw [List.mem_singleton.mp hlast] at hq
  rcases hp with rfl | rfl <;> cases hq

theorem move (hi : sys.threads[i]? = some p) (hp : p.watched = false) (hp' : p'.watched = false) :
    Sound seen { sys with threads := sys.threads.set i p' } := by
  apply v.rethread
  intro q hq
  constructor
  · exact fun hmem => mem_of_mem_set hmem (by rintro rfl; rw [hq] at hp'; cases hp')
  · exact fun hmem => mem_set_of_ne hi hmem (by rintro rfl; rw [hq] at hp; cases hp)

theorem start (hi : sys.threads[i]? = some .start) :
    Sound seen ⟨⟨some sys.shared.servers.length,sys.shared.servers ++ [⟨false,.listen,false⟩]⟩,
      sys.threads.set i (.started sys.shared.servers.length)⟩ := by
  have hold : ∀ {q}, q ∈ sys.threads.set i (.started sys.shared.servers.length) →
      q ≠ .started sys.shared.servers.length → q ∈ sys.threads := mem_of_mem_set
  have hkeep : ∀ {q p'}, q ∈ sys.threads → q ≠ .start → q ∈ sys.threads.set i p' :=
    fun hq hne => mem_set_of_ne hi hq hne
  have hlength : ∀ s, (sys.shared.servers ++ [s]).length = sys.shared.servers.length + 1 :=
    fun s => List.length_append
  -- a number that no deed has named yet
  have hnew : ∀ {d : Deed}, d.about = sys.shared.servers.length → d ∉ seen :=
    fun hd hmem => absurd (v.known hmem) (by omega)
  constructor
  case latest =>
    intro j hj
    obtain rfl := Option.some.inj hj
    exact (hlength _).symm
  case unstarted =>
    intro hnone
    cases hnone
  case known =>
    intro d hd
    rw [hlength]
    exact (v.known hd).trans (Nat.lt_succ_self _)
  case marking => exact fun hq => v.marking (hold hq (by simp))
  case closing =>
    intro j hq
    obtain ⟨hstop,hmark⟩ := v.closing (hold hq (by simp))
    have hlt : j < sys.shared.servers.length := v.known hstop
    refine ⟨hstop,fun s hs => hmark s ?_⟩
    rwa [← List.getElem?_append_left hlt]
  case stopped =>
    intro j hstop
    refine (v.stopped hstop).imp (hkeep · (by simp)) (Or.imp (hkeep · (by simp)) ?_)
    rintro ⟨hmark,hclosed⟩
    have hlt : j < sys.shared.servers.length := v.known hstop
    refine ⟨fun s hs => hmark s ?_,fun k s hs haccept => ?_⟩
    · rwa [← List.getElem?_append_left hlt]
    · rcases getElem?_concat hs with hs | ⟨_,rfl⟩
      · exact hclosed k s hs haccept
      · cases haccept
  case shutdown =>
    intro j s hs hdown
    rcases getElem?_concat hs with hs | ⟨_,rfl⟩
    · exact v.shutdown hs hdown
    · cases hdown
  case owned =>
    intro k s hs
    rcases getElem?_concat hs with hs | ⟨rfl,rfl⟩
    · exact hkeep (v.owned hs) (by simp)
    · exact mem_set_self hi
  case tells =>
    intro k s hs
    rcases getElem?_concat hs with hs | ⟨rfl,rfl⟩
    · exact v.tells hs
    · exact ⟨fun j => iff_of_false (hnew rfl) nofun,fun hbroke => absurd hbroke (hnew rfl),rfl⟩

theorem started (hi : sys.threads[i]? = some (.started k))
    (hk : sys.shared.servers[k]? = some s) (hadvance : s.advance sys.shared fault = some s') :
    Sound (seen ++ s.deeds sys.shared k fault)
      ⟨{ sys.shared with servers := sys.shared.servers.set k s' },
        sys.threads.set i (.started k)⟩ := by
  obtain ⟨hlt,hget⟩ := List.getElem?_eq_some_iff.mp hi
  have hthreads : sys.threads.set i (.started k) = sys.threads := by
    rw [← hget,List.set_getElem_self]
  obtain ⟨hmark,haccept⟩ := advance_cases hadvance
  have hstop : ∀ {j}, .stop j ∈ seen ++ s.deeds sys.shared k fault ↔ .stop j ∈ seen := by
    intro j
    rw [List.mem_append,or_iff_left]
    intro hmem
    rcases mem_deeds hmem with hd | ⟨_,hd⟩ <;> cases hd
  have hdown : ∀ {j : ℕ}, (∀ t, sys.shared.servers[j]? = some t → t.inShutdown = true) →
      ∀ t, (sys.shared.servers.set k s')[j]? = some t → t.inShutdown = true := by
    intro j hold t ht
    rcases getElem?_set_of_some hk ht with ⟨rfl,rfl⟩ | ⟨_,ht⟩
    · rw [hmark]
      exact hold s hk
    · exact hold t ht
  rw [hthreads]
  constructor
  case latest =>
    intro j hj
    rw [List.length_set]
    exact v.latest hj
  case unstarted =>
    intro hnone
    simp [v.unstarted hnone]
  case known =>
    intro d hd
    rw [List.length_set]
    rcases List.mem_append.mp hd with hold | hnew
    · exact v.known hold
    · have hin := (List.getElem?_eq_some_iff.mp hk).1
      rcases mem_deeds hnew with rfl | ⟨_,rfl⟩ <;> exact hin
  case marking => exact fun hq => hstop.mpr (v.marking hq)
  case closing =>
    intro j hq
    obtain ⟨hseen,hold⟩ := v.closing hq
    exact ⟨hstop.mpr hseen,hdown hold⟩
  case stopped =>
    intro j hseen
    refine (v.stopped (hstop.mp hseen)).imp_right (Or.imp_right ?_)
    rintro ⟨hold,hclosed⟩
    refine ⟨hdown hold,fun l t ht hat => ?_⟩
    rcases getElem?_set_of_some hk ht with ⟨rfl,rfl⟩ | ⟨_,ht⟩
    · -- a server that is shut down takes no listener
      have hin : j < sys.shared.servers.length := v.known (hstop.mp hseen)
      have hmarked := hold _ (List.getElem?_eq_getElem hin)
      have hopen := haccept j hat
      simp [HealthCheck.shuttingDown,hin,hmarked] at hopen
    · exact hclosed l t ht hat
  case shutdown =>
    intro j t ht hmarked
    rw [hstop]
    rcases getElem?_set_of_some hk ht with ⟨rfl,rfl⟩ | ⟨_,ht⟩
    · exact v.shutdown hk (hmark ▸ hmarked)
    · exact v.shutdown ht hmarked
  case owned =>
    intro l t ht
    rcases getElem?_set_of_some hk ht with ⟨rfl,rfl⟩ | ⟨_,ht⟩
    · exact v.owned hk
    · exact v.owned ht
  case tells =>
    intro l t ht
    rcases getElem?_set_of_some hk ht with ⟨rfl,rfl⟩ | ⟨hne,ht⟩
    · exact (v.tells hk).advance (fun _ => v.shuttingDown) hadvance
    · have hother : ∀ d, d.about = l → (d ∈ seen ++ s.deeds sys.shared k fault ↔ d ∈ seen) := by
        intro d hd
        rw [List.mem_append,or_iff_left]
        intro hmem
        rcases mem_deeds hmem with rfl | ⟨_,rfl⟩ <;> exact hne hd.symm
      exact (v.tells ht).congr (fun j => hother _ rfl) (hother _ rfl) fun j => hstop.mpr

theorem stop (hi : sys.threads[i]? = some .shutdown) (hj : sys.shared.server = some j) :
    Sound (seen ++ [.stop j]) ⟨sys.shared,sys.threads.set i (.mark j)⟩ := by
  have hkeep : ∀ {q}, q ∈ sys.threads → q ≠ .shutdown → q ∈ sys.threads.set i (.mark j) :=
    fun hq hne => mem_set_of_ne hi hq hne
  have hseen : ∀ {d}, d ∈ seen → d ∈ seen ++ [Deed.stop j] := List.mem_append_left _
  constructor
  case latest => exact v.latest
  case unstarted => exact v.unstarted
  case known =>
    intro d hd
    rcases List.mem_append.mp hd with hold | hlast
    · exact v.known hold
    · rw [List.mem_singleton.mp hlast]
      exact Nat.lt_of_lt_of_eq (Nat.lt_succ_self j) (v.latest hj)
  case marking =>
    intro l hq
    by_cases hl : l = j
    · rw [hl]
      exact List.mem_append_right _ (.head _)
    · exact hseen (v.marking (mem_of_mem_set hq (by simpa using hl)))
  case closing =>
    intro l hq
    obtain ⟨hstop,hmark⟩ := v.closing (mem_of_mem_set hq (by simp))
    exact ⟨hseen hstop,hmark⟩
  case stopped =>
    intro l hl
    rcases List.mem_append.mp hl with hold | hlast
    · exact (v.stopped hold).imp (hkeep · (by simp)) (Or.imp_left (hkeep · (by simp)))
    · cases List.mem_singleton.mp hlast
      exact .inl (mem_set_self hi)
  case shutdown => exact fun hs hdown => hseen (v.shutdown hs hdown)
  case owned => exact fun hk => hkeep (v.owned hk) (by simp)
  case tells => exact fun hk => (v.tells hk).congr (by simp) (by simp) fun _ => hseen

theorem remap (hi : sys.threads[i]? = some p) (hp : p = .mark j ∨ p = .closeListeners j)
    (hp' : p' = .closeListeners j ∨ p' = .wait j) (hstop : .stop j ∈ seen)
    {servers : List HTTPServer} (hlength : servers.length = sys.shared.servers.length)
    (hserver : ∀ {k : ℕ} {t : HTTPServer}, servers[k]? = some t →
      ∃ s, sys.shared.servers[k]? = some s ∧ t.phase = s.phase ∧
        (t.inShutdown = s.inShutdown ∨ k = j) ∧ (t.listening = s.listening ∨ s.phase = .accept j))
    (hclosing : ∀ {l : ℕ}, .closeListeners l ∈ sys.threads.set i p' → .stop l ∈ seen ∧
      ∀ t, servers[l]? = some t → t.inShutdown = true)
    (hstopped : ∀ {l : ℕ}, .stop l ∈ seen → .mark l ∈ sys.threads.set i p' ∨
      .closeListeners l ∈ sys.threads.set i p' ∨ Closed servers l) :
    Sound seen ⟨{ sys.shared with servers := servers },sys.threads.set i p'⟩ where
  latest hl := (v.latest hl).trans hlength.symm
  unstarted hnone := by
    rw [← List.length_eq_zero_iff,hlength,v.unstarted hnone]
    rfl
  known hd := (v.known hd).trans_eq hlength.symm
  marking hq := by
    refine v.marking (mem_of_mem_set hq ?_)
    rcases hp' with rfl | rfl <;> simp
  closing := hclosing
  stopped := hstopped
  shutdown ht hdown := by
    obtain ⟨s,hs,_,hmark | rfl,_⟩ := hserver ht
    · exact v.shutdown hs (hmark ▸ hdown)
    · exact hstop
  owned ht := by
    obtain ⟨s,hs,_⟩ := hserver ht
    refine mem_set_of_ne hi (v.owned hs) ?_
    rcases hp with rfl | rfl <;> simp
  tells ht := by
    obtain ⟨s,hs,hphase,_,hlistening⟩ := hserver ht
    obtain ⟨hserves,hbroke,htold⟩ := v.tells hs
    refine ⟨hphase ▸ hserves,hphase ▸ hbroke,?_⟩
    rw [hphase]
    rcases hlistening with hsame | haccept
    · rw [hsame]
      exact htold
    · rw [haccept]
      exact .inr hstop

theorem mark (hi : sys.threads[i]? = some (.mark j)) :
    Sound seen ⟨{ sys.shared with servers := sys.shared.servers.modify j fun s =>
      { s with inShutdown := true } },sys.threads.set i (.closeListeners j)⟩ := by
  have hstop := v.marking (List.mem_of_getElem? hi)
  have hserver : ∀ {k : ℕ} {t : HTTPServer}, (sys.shared.servers.modify j fun s =>
      { s with inShutdown := true })[k]? = some t → ∃ s, sys.shared.servers[k]? = some s ∧
        t.phase = s.phase ∧ t.listening = s.listening ∧
        (k = j ∧ t.inShutdown = true ∨ k ≠ j ∧ t = s) := by
    intro k t ht
    rw [List.getElem?_modify] at ht
    obtain ⟨s,hs,rfl⟩ := Option.map_eq_some_iff.mp ht
    refine ⟨s,hs,?_⟩
    by_cases hk : j = k
    · simp [hk]
    · simp [hk,Ne.symm hk]
  refine v.remap hi (.inl rfl) (.inl rfl) hstop (List.length_modify ..) ?_ ?_ ?_
  · intro k t ht
    obtain ⟨s,hs,hphase,hlistening,⟨hk,_⟩ | ⟨_,rfl⟩⟩ := hserver ht
    · exact ⟨s,hs,hphase,.inr hk,.inl hlistening⟩
    · exact ⟨t,hs,rfl,.inl rfl,.inl rfl⟩
  · intro l hq
    have hseen : .stop l ∈ seen := by
      by_cases hl : l = j
      · exact hl ▸ hstop
      · exact (v.closing (mem_of_mem_set hq (by simpa using hl))).1
    refine ⟨hseen,fun t ht => ?_⟩
    obtain ⟨s,hs,_,_,⟨_,hmarked⟩ | ⟨hl,rfl⟩⟩ := hserver ht
    · exact hmarked
    · exact (v.closing (mem_of_mem_set hq (by simpa using hl))).2 t hs
  · intro l hl
    by_cases hlj : l = j
    · exact .inr (.inl (hlj ▸ mem_set_self hi))
    · refine (v.stopped hl).imp (fun hq => mem_set_of_ne hi hq (by simpa using hlj))
        (Or.imp (fun hq => mem_set_of_ne hi hq (by simp)) ?_)
      rintro ⟨hmarked,hclosed⟩
      refine ⟨fun t ht => ?_,fun k t ht haccept => ?_⟩
      · obtain ⟨s,hs,_,_,⟨hl,_⟩ | ⟨_,rfl⟩⟩ := hserver ht
        · exact absurd hl hlj
        · exact hmarked t hs
      · obtain ⟨s,hs,hphase,hlistening,_⟩ := hserver ht
        exact hlistening.trans (hclosed k s hs (hphase.symm.trans haccept))

theorem closeListeners (hi : sys.threads[i]? = some (.closeListeners j)) :
    Sound seen ⟨{ sys.shared with servers := sys.shared.servers.map (HTTPServer.closeOn j) },
      sys.threads.set i (.wait j)⟩ := by
  obtain ⟨hstop,hmark⟩ := v.closing (List.mem_of_getElem? hi)
  have hserver : ∀ {k : ℕ} {t : HTTPServer},
      (sys.shared.servers.map (HTTPServer.closeOn j))[k]? = some t →
      ∃ s, sys.shared.servers[k]? = some s ∧ t.phase = s.phase ∧ t.inShutdown = s.inShutdown ∧
        (s.phase = .accept j ∧ t.listening = false ∨ s.phase ≠ .accept j ∧ t = s) := by
    intro k t ht
    rw [List.getElem?_map] at ht
    obtain ⟨s,hs,rfl⟩ := Option.map_eq_some_iff.mp ht
    refine ⟨s,hs,?_⟩
    unfold HTTPServer.closeOn
    split_ifs with haccept <;> simp [haccept]
  have hdown : ∀ {l : ℕ}, (∀ s, sys.shared.servers[l]? = some s → s.inShutdown = true) →
      ∀ t, (sys.shared.servers.map (HTTPServer.closeOn j))[l]? = some t →
        t.inShutdown = true := by
    intro l hold t ht
    obtain ⟨s,hs,_,hsame,_⟩ := hserver ht
    exact hsame.trans (hold s hs)
  refine v.remap hi (.inr rfl) (.inr rfl) hstop (List.length_map ..) ?_ ?_ ?_
  · intro k t ht
    obtain ⟨s,hs,hphase,hsame,⟨haccept,_⟩ | ⟨_,rfl⟩⟩ := hserver ht
    · exact ⟨s,hs,hphase,.inl hsame,.inr haccept⟩
    · exact ⟨t,hs,rfl,.inl rfl,.inl rfl⟩
  · intro l hq
    obtain ⟨hseen,hmarked⟩ := v.closing (mem_of_mem_set hq (by simp))
    exact ⟨hseen,hdown hmarked⟩
  · intro l hl
    by_cases hlj : l = j
    · subst hlj
      refine .inr (.inr ⟨hdown hmark,fun k t ht haccept => ?_⟩)
      obtain ⟨s,_,hphase,_,⟨_,hclosed⟩ | ⟨hother,_⟩⟩ := hserver ht
      · exact hclosed
      · exact absurd (hphase.symm.trans haccept) hother
    · refine (v.stopped hl).imp (fun hq => mem_set_of_ne hi hq (by simp))
        (Or.imp (fun hq => mem_set_of_ne hi hq (by simpa using hlj)) ?_)
      rintro ⟨hmarked,hclosed⟩
      refine ⟨hdown hmarked,fun k t ht haccept => ?_⟩
      obtain ⟨s,hs,_,_,⟨_,hshut⟩ | ⟨_,rfl⟩⟩ := hserver ht
      · exact hshut
      · exact hclosed k t hs haccept

end Sound

theorem deeds_of_blocked (hprog : prog h p fault = none) : deeds h p fault = [] := by
  cases p with
  | started k =>
    simp only [prog,deeds,Option.map_eq_none_iff] at hprog ⊢
    cases hk : h.servers[k]? with
    | none => rfl
    | some s =>
      rw [hk,Option.bind_some] at hprog
      cases hphase : s.phase with
      | accept j =>
        simp only [HTTPServer.advance,hphase] at hprog
        split_ifs at hprog with hclosed hfault
        simp_all [HTTPServer.deeds]
      | _ => simp_all [HTTPServer.advance,HTTPServer.deeds]
  | shutdown =>
    simp only [prog,Option.map_eq_none_iff] at hprog
    simp [deeds,hprog]
  | start | stop | mark | closeListeners | wait | returned => rfl

theorem Sound.step {sys : System HealthCheck Point} (v : Sound seen sys)
    {e : Event Point (Option String)} (he : Begins e) :
    Sound (seen ++ observed deeds sys e) (step prog sys e) := by
  rcases observed_cases deeds_of_blocked sys e with
    ⟨hsame,hseen⟩ | ⟨p,rfl,hspawn,hseen⟩ | ⟨i,fault,p,h',p',rfl,hi,hprog,hadvance,hseen⟩
  · rw [hsame,hseen,List.append_nil]
    exact v
  · rw [hspawn,hseen,List.append_nil]
    exact v.spawn he
  · rw [hadvance,hseen]
    cases p with
    | started k =>
      simp only [prog,deeds] at hprog ⊢
      cases hk : sys.shared.servers[k]? with
      | none =>
        rw [hk] at hprog
        cases hprog
      | some s =>
        rw [hk,Option.bind_some] at hprog
        obtain ⟨s',hs',hpair⟩ := Option.map_eq_some_iff.mp hprog
        cases hpair
        simpa using v.started hi hk hs'
    | shutdown =>
      simp only [prog,deeds] at hprog ⊢
      obtain ⟨j,hj,hpair⟩ := Option.map_eq_some_iff.mp hprog
      cases hpair
      rw [hj]
      exact v.stop hi hj
    | start =>
      cases hprog
      simp only [deeds,List.append_nil]
      exact v.start hi
    | stop =>
      simp only [prog] at hprog
      simp only [deeds,List.append_nil]
      split_ifs at hprog <;> cases hprog <;> exact v.move hi rfl rfl
    | mark j =>
      cases hprog
      simp only [deeds,List.append_nil]
      exact v.mark hi
    | closeListeners j =>
      cases hprog
      simp only [deeds,List.append_nil]
      exact v.closeListeners hi
    | wait j =>
      simp only [prog] at hprog
      simp only [deeds,List.append_nil]
      split_ifs at hprog
      cases hprog
      exact v.move hi rfl rfl
    | returned err => cases hprog

/-- At rest: no goroutine has a step to take, but for a `Serve` that fails by itself. -/
def Rests (sys : System HealthCheck Point) : Prop :=
  ∀ p ∈ sys.threads, prog sys.shared p none = none

/-- Whichever starts and stops there were, and however they interleaved: once all is at rest, the
listener of a `Start` is open exactly if its goroutine turned to a server, that of its own `Start`
or of a later one, to which no `Stop` ever turned, and `Serve` has not failed. -/
theorem listening_iff {es : List (Event Point (Option String))} (hes : ∀ e ∈ es, Begins e)
    (hrests : Rests (run prog ⟨newHealthCheck,[]⟩ es))
    (hk : (run prog ⟨newHealthCheck,[]⟩ es).shared.servers[k]? = some s) :
    let seen := trace prog deeds ⟨newHealthCheck,[]⟩ es
    s.listening = true ↔ ∃ j, .serves k j ∈ seen ∧ .broke k ∉ seen ∧ .stop j ∉ seen := by
  intro seen
  have v : Sound ([] ++ seen) (run prog ⟨newHealthCheck,[]⟩ es) :=
    invariant_trace (fun _ _ _ hinv he => hinv.step he) sound_new hes
  rw [List.nil_append] at v
  generalize run prog ⟨newHealthCheck,[]⟩ es = sys at v hrests hk
  obtain ⟨hserves,hbroke,hlistening⟩ := v.tells hk
  have hblocked : s.advance sys.shared none = none := by
    have hstarted := hrests _ (v.owned hk)
    simpa [prog,hk] using hstarted
  cases hphase : s.phase with
  | listen => simp [HTTPServer.advance,hphase] at hblocked
  | serve =>
    simp only [HTTPServer.advance,hphase,Option.map_eq_none_iff] at hblocked
    rw [v.unstarted hblocked] at hk
    cases hk
  | track j =>
    simp only [HTTPServer.advance,hphase] at hblocked
    split_ifs at hblocked
  | refused err =>
    rw [hphase] at hlistening hserves
    refine iff_of_false (by simp [hlistening]) ?_
    rintro ⟨j,hj,_⟩
    cases (hserves j).mp hj
  | accept j =>
    rw [hphase] at hlistening hserves hbroke
    constructor
    · intro hopen
      refine ⟨j,(hserves j).mpr rfl,fun hb => ?_,fun hstop => ?_⟩
      · obtain ⟨_,hended⟩ := hbroke hb
        cases hended
      · rcases v.stopped hstop with hmark | hclosing | ⟨_,hclosed⟩
        · cases hrests _ hmark
        · cases hrests _ hclosing
        · rw [hclosed k s hk hphase] at hopen
          cases hopen
    · rintro ⟨l,hl,_,hstop⟩
      obtain rfl := Option.some.inj ((hserves l).mp hl)
      exact hlistening.resolve_right hstop
  | ended j =>
    rw [hphase] at hlistening hserves
    refine iff_of_false (by simp [hlistening.1]) ?_
    rintro ⟨l,hl,hb,hstop⟩
    obtain rfl := Option.some.inj ((hserves l).mp hl)
    exact hlistening.2.elim hb hstop

/-- A `Start` whose address is taken by the first, and a `Stop`. -/
def startsTwice : List (Event Point (Option String)) :=
  [.spawn .start,.advance 0 none,.advance 0 none,.advance 0 none,.advance 0 none,
    .spawn .start,.advance 1 none,.advance 1 (some "address already in use"),
    .spawn .stop,.advance 2 none,.advance 2 none,.advance 2 none,.advance 2 none,.advance 2 none]

/-- The `Stop` returns nil and the first listener stays open. -/
theorem listening_iff_startsTwice :
    let sys := run prog ⟨newHealthCheck,[]⟩ startsTwice
    Rests sys ∧ sys.threads = [.started 0,.started 1,.returned none] ∧
      ∃ s, sys.shared.servers[0]? = some s ∧ s.listening = true := by
  intro sys
  have hrests : Rests sys := by
    unfold Rests
    decide
  have hes : ∀ e ∈ startsTwice, Begins e := by simp [startsTwice,Begins]
  have hk : sys.shared.servers[0]? = some ⟨false,.accept 0,true⟩ := by decide
  have hopen := (listening_iff hes hrests hk).mpr ⟨0,by decide⟩
  exact ⟨hrests,by decide,_,hk,hopen⟩

end P2PForge.Health
