import P2PForge.Topics

/-! The life of a topic under concurrent joins and leaves.
Seen from pubsub a name is absent, joined, subscribed or cancelled, in this order and round
again. Which of these it is, and what the two maps hold, is fixed by the point at which the
caller inside the critical section stands. Handles and subscriptions are numbered as pubsub
gives them out, so one that was closed or cancelled never comes back. -/
namespace P2PForge.Node

open Interleaving

def subscribed (n : Node) (c : TopicCall) (fault : Option String) : List (ℕ × ℕ) :=
  match c.point,fault with
  | .subscribe _ topic,none => [(topic,n.pubsub.subscriptions)]
  | _,_ => []

inductive Stage
  | absent
  | joined (topic : ℕ)
  | subscribed (topic sub : ℕ)
  | cancelled (topic sub : ℕ)

def At (given : List (ℕ × ℕ)) (ps : PubSub) (name : String) : Stage → Prop
  | .absent => ps.joined name = none
  | .joined topic => ps.joined name = some topic ∧ ∀ sub, (topic,sub) ∉ given
  | .subscribed topic sub =>
    ps.joined name = some topic ∧ (topic,sub) ∈ given ∧ sub ∉ ps.cancelled
  | .cancelled topic sub =>
    ps.joined name = some topic ∧ (topic,sub) ∈ given ∧ sub ∈ ps.cancelled

/-- The books of pubsub: open handles belong to one name, a handle has at most one
subscription, and what was closed or cancelled was so once, the subscription first. -/
structure Ledger (given : List (ℕ × ℕ)) (ps : PubSub) : Prop where
  joined_lt : ∀ {name topic}, ps.joined name = some topic → topic < ps.handles
  joined_inj : ∀ {name name' topic}, ps.joined name = some topic →
    ps.joined name' = some topic → name = name'
  joined_open : ∀ {name topic}, ps.joined name = some topic → topic ∉ ps.closed
  closed_lt : ∀ {topic}, topic ∈ ps.closed → topic < ps.handles
  closed_nodup : ps.closed.Nodup
  given_lt : ∀ {topic sub}, (topic,sub) ∈ given → topic < ps.handles ∧ sub < ps.subscriptions
  given_topic : ∀ {topic topic' sub}, (topic,sub) ∈ given → (topic',sub) ∈ given →
    topic = topic'
  given_sub : ∀ {topic sub sub'}, (topic,sub) ∈ given → (topic,sub') ∈ given → sub = sub'
  cancelled_lt : ∀ {sub}, sub ∈ ps.cancelled → sub < ps.subscriptions
  cancelled_nodup : ps.cancelled.Nodup
  closed_cancelled : ∀ {topic}, topic ∈ ps.closed → ∃ sub, (topic,sub) ∈ given ∧
    sub ∈ ps.cancelled

theorem ledger_new (enabled : Bool) : Ledger [] (new enabled).pubsub := by
  constructor <;> simp [new]

/-- What a step does to pubsub, and the subscription it obtains. -/
inductive PubSubStep (name : String) (given : List (ℕ × ℕ)) (ps : PubSub) :
    Point → List (ℕ × ℕ) → PubSub → Prop
  | none {p} : PubSubStep name given ps p given ps
  | join {m} : ps.joined name = Option.none →
    PubSubStep name given ps (.join m) given { ps with
      joined := Function.update ps.joined name (some ps.handles)
      handles := ps.handles + 1 }
  | subscribe {m topic} : PubSubStep name given ps (.subscribe m topic)
      (given ++ [(topic,ps.subscriptions)]) { ps with subscriptions := ps.subscriptions + 1 }
  | cancel {m sub} : PubSubStep name given ps (.cancel m sub) given
      { ps with cancelled := sub :: ps.cancelled }
  | close {m topic} : PubSubStep name given ps (.close m topic) given { ps with
      joined := Function.update ps.joined name Option.none
      closed := topic :: ps.closed }

variable {n n' : Node} {c c' : TopicCall} {given given' : List (ℕ × ℕ)} {ps ps' : PubSub}
  {name other : String}

theorem advance_pubSubStep (h : n.advance c none = some (n',c')) :
    PubSubStep c.name given n.pubsub c.point (given ++ subscribed n c none) n'.pubsub := by
  unfold subscribed
  revert h
  fun_cases advance n c none <;> intro h <;> cases h <;> simp_all <;>
    first
    | exact .none
    | (apply PubSubStep.join; assumption)
    | exact .subscribe
    | exact .cancel
    | exact .close

/-- What the books say of a caller's name, by the pubsub call it is about to make. -/
def Ready (given : List (ℕ × ℕ)) (ps : PubSub) (name : String) : Point → Prop
  | .subscribe _ topic => At given ps name (.joined topic)
  | .cancel _ sub => ∃ topic, At given ps name (.subscribed topic sub)
  | .close _ topic => ∃ sub, At given ps name (.cancelled topic sub)
  | _ => True

namespace Ledger

variable (v : Ledger given ps)
include v

theorem join : Ledger given { ps with
    joined := Function.update ps.joined name (some ps.handles)
    handles := ps.handles + 1 } := by
  have hcases : ∀ {a topic}, Function.update ps.joined name (some ps.handles) a = some topic →
      a = name ∧ topic = ps.handles ∨ a ≠ name ∧ ps.joined a = some topic := by
    intro a topic ha
    by_cases hname : a = name
    · subst hname
      rw [Function.update_self] at ha
      exact .inl ⟨rfl,(Option.some.inj ha).symm⟩
    · rw [Function.update_of_ne hname] at ha
      exact .inr ⟨hname,ha⟩
  refine { v with joined_lt := ?_,joined_inj := ?_,joined_open := ?_,closed_lt := ?_,
                  given_lt := ?_ }
  · intro a topic ha
    rcases hcases ha with ⟨_,rfl⟩ | ⟨_,hold⟩
    · exact Nat.lt_succ_self _
    · exact (v.joined_lt hold).trans (Nat.lt_succ_self _)
  · intro a b topic ha hb
    rcases hcases ha with ⟨rfl,rfl⟩ | ⟨_,hold⟩ <;> rcases hcases hb with ⟨rfl,hnew⟩ | ⟨_,hold'⟩
    · rfl
    · exact absurd (v.joined_lt hold') (lt_irrefl _)
    · exact absurd (v.joined_lt hold) hnew.not_lt
    · exact v.joined_inj hold hold'
  · intro a topic ha
    rcases hcases ha with ⟨_,rfl⟩ | ⟨_,hold⟩
    · exact fun hmem => absurd (v.closed_lt hmem) (lt_irrefl _)
    · exact v.joined_open hold
  · exact fun hmem => (v.closed_lt hmem).trans (Nat.lt_succ_self _)
  · exact fun hmem => ⟨(v.given_lt hmem).1.trans (Nat.lt_succ_self _),(v.given_lt hmem).2⟩

theorem subscribe {topic : ℕ} (hready : At given ps name (.joined topic)) :
    Ledger (given ++ [(topic,ps.subscriptions)])
      { ps with subscriptions := ps.subscriptions + 1 } := by
  have hfresh : ∀ {t}, (t,ps.subscriptions) ∉ given :=
    fun hmem => absurd (v.given_lt hmem).2 (lt_irrefl _)
  refine { v with given_lt := ?_,given_topic := ?_,given_sub := ?_,cancelled_lt := ?_,
                  closed_cancelled := ?_ }
  · intro t s hmem
    rcases List.mem_append.mp hmem with hold | hnew
    · exact ⟨(v.given_lt hold).1,(v.given_lt hold).2.trans (Nat.lt_succ_self _)⟩
    · cases List.mem_singleton.mp hnew
      exact ⟨v.joined_lt hready.1,Nat.lt_succ_self _⟩
  · intro t t' s hmem hmem'
    rcases List.mem_append.mp hmem with hold | hnew <;>
      rcases List.mem_append.mp hmem' with hold' | hnew'
    · exact v.given_topic hold hold'
    · cases List.mem_singleton.mp hnew'
      exact absurd hold hfresh
    · cases List.mem_singleton.mp hnew
      exact absurd hold' hfresh
    · cases List.mem_singleton.mp hnew
      cases List.mem_singleton.mp hnew'
      rfl
  · intro t s s' hmem hmem'
    rcases List.mem_append.mp hmem with hold | hnew <;>
      rcases List.mem_append.mp hmem' with hold' | hnew'
    · exact v.given_sub hold hold'
    · cases List.mem_singleton.mp hnew'
      exact absurd hold (hready.2 s)
    · cases List.mem_singleton.mp hnew
      exact absurd hold' (hready.2 s')
    · cases List.mem_singleton.mp hnew
      cases List.mem_singleton.mp hnew'
      rfl
  · exact fun hmem => (v.cancelled_lt hmem).trans (Nat.lt_succ_self _)
  · intro t hmem
    obtain ⟨s,hgiven,hcancelled⟩ := v.closed_cancelled hmem
    exact ⟨s,List.mem_append_left _ hgiven,hcancelled⟩

theorem cancel {topic sub : ℕ} (hready : At given ps name (.subscribed topic sub)) :
    Ledger given { ps with cancelled := sub :: ps.cancelled } := by
  obtain ⟨_,hgiven,hlive⟩ := hready
  refine { v with cancelled_lt := ?_,cancelled_nodup := v.cancelled_nodup.cons hlive,
                  closed_cancelled := ?_ }
  · intro s hmem
    rcases List.mem_cons.mp hmem with rfl | hold
    · exact (v.given_lt hgiven).2
    · exact v.cancelled_lt hold
  · intro t hmem
    obtain ⟨s,hs,hcancelled⟩ := v.closed_cancelled hmem
    exact ⟨s,hs,List.mem_cons_of_mem _ hcancelled⟩

theorem close {topic sub : ℕ} (hready : At given ps name (.cancelled topic sub)) :
    Ledger given { ps with
      joined := Function.update ps.joined name none
      closed := topic :: ps.closed } := by
  obtain ⟨hjoined,hgiven,hcancelled⟩ := hready
  have hcases : ∀ {a t}, Function.update ps.joined name none a = some t →
      a ≠ name ∧ ps.joined a = some t := by
    intro a t ha
    by_cases hname : a = name
    · subst hname
      simp at ha
    · rw [Function.update_of_ne hname] at ha
      exact ⟨hname,ha⟩
  refine { v with joined_lt := fun ha => v.joined_lt (hcases ha).2
                  joined_inj := fun ha hb => v.joined_inj (hcases ha).2 (hcases hb).2
                  joined_open := ?_
                  closed_lt := ?_
                  closed_nodup := v.closed_nodup.cons (v.joined_open hjoined)
                  closed_cancelled := ?_ }
  · intro a t ha hmem
    obtain ⟨hne,hold⟩ := hcases ha
    rcases List.mem_cons.mp hmem with rfl | hclosed
    · exact hne (v.joined_inj hold hjoined)
    · exact v.joined_open hold hclosed
  · intro t hmem
    rcases List.mem_cons.mp hmem with rfl | hold
    · exact v.joined_lt hjoined
    · exact v.closed_lt hold
  · intro t hmem
    rcases List.mem_cons.mp hmem with rfl | hold
    · exact ⟨sub,hgiven,hcancelled⟩
    · exact v.closed_cancelled hold

theorem step {p : Point} (hstep : PubSubStep name given ps p given' ps')
    (hready : Ready given ps name p) : Ledger given' ps' := by
  cases hstep with
  | none => exact v
  | join _ => exact v.join
  | subscribe => exact v.subscribe hready
  | cancel =>
    obtain ⟨topic,hat⟩ := hready
    exact v.cancel hat
  | close =>
    obtain ⟨sub,hat⟩ := hready
    exact v.close hat

theorem at_other {p : Point} (hstep : PubSubStep name given ps p given' ps')
    (hready : Ready given ps name p) (hne : other ≠ name) {stage : Stage}
    (hat : At given ps other stage) : At given' ps' other stage := by
  cases hstep with
  | none => exact hat
  | join _ => cases stage <;> simpa [At,Function.update_of_ne hne] using hat
  | subscribe =>
    cases stage with
    | absent => exact hat
    | joined topic =>
      refine ⟨hat.1,fun sub hmem => ?_⟩
      rcases List.mem_append.mp hmem with hold | hnew
      · exact hat.2 sub hold
      · cases List.mem_singleton.mp hnew
        exact hne (v.joined_inj hat.1 hready.1)
    | subscribed topic sub => exact ⟨hat.1,List.mem_append_left _ hat.2.1,hat.2.2⟩
    | cancelled topic sub => exact ⟨hat.1,List.mem_append_left _ hat.2.1,hat.2.2⟩
  | cancel =>
    obtain ⟨topic',hat'⟩ := hready
    cases stage with
    | absent => exact hat
    | joined topic => exact hat
    | subscribed topic sub =>
      refine ⟨hat.1,hat.2.1,fun hmem => ?_⟩
      rcases List.mem_cons.mp hmem with rfl | hold
      · -- the two names would share the handle their subscription came from
        obtain rfl := v.given_topic hat.2.1 hat'.2.1
        exact hne (v.joined_inj hat.1 hat'.1)
      · exact hat.2.2 hold
    | cancelled topic sub => exact ⟨hat.1,hat.2.1,List.mem_cons_of_mem _ hat.2.2⟩
  | close => cases stage <;> simpa [At,Function.update_of_ne hne] using hat

end Ledger

/-- A name's stage together with its entries in the two maps. -/
@[mk_iff] structure Holds (g : List (ℕ × ℕ) × Node) (name : String) (stage : Stage)
    (topic sub : Option ℕ) : Prop where
  stage : At g.1 g.2.pubsub name stage
  topics : g.2.topics name = topic
  subs : g.2.subs name = sub

/-- Between calls a name is absent or subscribed, and the maps say so. -/
def Resting (g : List (ℕ × ℕ) × Node) (name : String) : Prop :=
  Holds g name .absent none none ∨
    ∃ topic sub, Holds g name (.subscribed topic sub) (some topic) (some sub)

def Life (g : List (ℕ × ℕ) × Node) (c : TopicCall) : Prop :=
  match c.op,c.point with
  | .joinTopic,.recheck _ | .leaveTopic,.takeSub _ => Resting g c.name
  | .joinTopic,.join _ => Holds g c.name .absent none none
  | .joinTopic,.subscribe _ topic => Holds g c.name (.joined topic) none none
  | .joinTopic,.storeTopic _ topic sub => Holds g c.name (.subscribed topic sub) none none
  | .joinTopic,.storeSub _ sub | .leaveTopic,.cancel _ sub =>
    ∃ topic, Holds g c.name (.subscribed topic sub) (some topic) none
  | .leaveTopic,.takeTopic _ => Holds g c.name .absent none none ∨
    ∃ topic sub, Holds g c.name (.cancelled topic sub) (some topic) none
  | .leaveTopic,.close _ topic => ∃ sub, Holds g c.name (.cancelled topic sub) none none
  | _,.unlock _ result => result = none ∧ Resting g c.name
  | _,_ => False

/-- The topics of a node with their callers, by the stages of their lives. -/
def lives : Monitor (List (ℕ × ℕ) × Node) TopicCall String where
  name c := c.name
  inside c := c.point.holds ≠ none
  rely g c := Life g c
  idle g name := Resting g name

theorem Resting.mono {g g' : List (ℕ × ℕ) × Node}
    (hg : ∀ {stage topic sub}, Holds g name stage topic sub → Holds g' name stage topic sub)
    (h : Resting g name) : Resting g' name := by
  rcases h with habsent | ⟨topic,sub,hsubscribed⟩
  · exact .inl (hg habsent)
  · exact .inr ⟨topic,sub,hg hsubscribed⟩

theorem Life.mono {g g' : List (ℕ × ℕ) × Node}
    (hg : ∀ {stage topic sub}, Holds g c.name stage topic sub → Holds g' c.name stage topic sub)
    (h : Life g c) : Life g' c := by
  have hrest : Resting g c.name → Resting g' c.name := Resting.mono hg
  unfold Life at h ⊢
  split <;> simp_all <;> grind

theorem ready_of_life {g : List (ℕ × ℕ) × Node}
    (h : c.point.holds ≠ none → Life g c) : Ready g.1 g.2.pubsub c.name c.point := by
  cases hop : c.op <;> cases hpoint : c.point <;>
    simp_all [Life,Ready,Point.holds,Point.mutex]
  · exact h.stage
  · obtain ⟨topic,hholds⟩ := h
    exact ⟨topic,hholds.stage⟩
  · obtain ⟨sub,hholds⟩ := h
    exact ⟨sub,hholds.stage⟩

section Steps

variable (h : n.advance c none = some (n',c'))
include h

theorem Holds.stable (v : Ledger given n.pubsub) (hlife : c.point.holds ≠ none → Life (given,n) c)
    (hother : other ≠ c.name ∨ ¬ c.point.holds ≠ none) {stage : Stage} {topic sub : Option ℕ}
    (hholds : Holds (given,n) other stage topic sub) :
    Holds (given ++ subscribed n c none,n') other stage topic sub := by
  by_cases hne : other ≠ c.name
  · obtain ⟨htopics,hsubs,_⟩ := advance_frame h hne
    have hstage := v.at_other (advance_pubSubStep h) (ready_of_life hlife) hne hholds.stage
    exact ⟨hstage,htopics.trans hholds.topics,hsubs.trans hholds.subs⟩
  · have hout : c.point.holds = none := by tauto
    obtain ⟨htopics,hsubs,hpubsub⟩ := advance_outside h hout
    have hnone : subscribed n c none = [] := by
      cases hpoint : c.point <;> simp_all [subscribed,Point.holds,Point.mutex]
    rw [hnone,List.append_nil]
    refine ⟨?_,(congrFun htopics _).trans hholds.topics,(congrFun hsubs _).trans hholds.subs⟩
    rw [hpubsub]
    exact hholds.stage

/-- Inside the critical section a step leads to the next stage, or out of it with the topic
at rest. -/
theorem life_inside (v : Ledger given n.pubsub) (hin : c.point.holds ≠ none)
    (hlife : Life (given,n) c) :
    (c'.point.holds ≠ none → Life (given ++ subscribed n c none,n') c') ∧
      (¬ c'.point.holds ≠ none → Resting (given ++ subscribed n c none,n') c.name) := by
  have htopic : ∀ sub, (n.pubsub.handles,sub) ∉ given :=
    fun sub hmem => absurd (v.given_lt hmem).1 (lt_irrefl _)
  have hsub : n.pubsub.subscriptions ∉ n.pubsub.cancelled :=
    fun hmem => absurd (v.cancelled_lt hmem) (lt_irrefl _)
  generalize hfault : (none : Option String) = fault at h ⊢
  revert h
  fun_cases advance n c fault <;> intro h <;> cases h <;> cases hop : c.op <;>
    simp_all [Life,Resting,holds_iff,At,subscribed,Point.holds,Point.mutex] <;>
    grind

theorem life_enter (hout : ¬ c.point.holds ≠ none) (hin : c'.point.holds ≠ none)
    (hrest : Resting (given',n') c.name) : Life (given',n') c' := by
  revert h hin
  fun_cases advance n c none <;> intro h <;> cases h <;> cases hop : c.op <;>
    simp_all [Life,TopicOp.enter,Point.holds,Point.mutex]

theorem advance_result (hlife : c.point.holds ≠ none → Life (given,n) c)
    {result : Option TopicErr} (hresult : c'.point = .returned result) :
    result = none ∨ n.enabled = false ∧ result = some .pubsubNotEnabled := by
  revert h hresult
  fun_cases advance n c none <;> intro h <;> cases h <;> cases hop : c.op <;>
    simp_all [Life,TopicOp.enter,Point.holds,Point.mutex]

end Steps

theorem subscribed_of_blocked {fault : Option String} (h : n.advance c fault = none) :
    subscribed n c fault = [] := by
  unfold subscribed
  revert h
  fun_cases advance n c fault <;> intro h <;> cases h <;> simp_all

/-- The invariant of runs of joins and leaves: guarded callers, true books, every topic at
the stage its caller says, and no call refused. -/
structure Living (given : List (ℕ × ℕ)) (sys : System Node TopicCall) : Prop extends
    Guarded sys where
  ledger : Ledger given sys.shared.pubsub
  kept : lives.Kept (given,sys.shared) sys.threads
  result : ∀ c ∈ sys.threads, ∀ result, c.point = .returned result →
    result = none ∨ sys.shared.enabled = false ∧ result = some .pubsubNotEnabled

theorem living_new (enabled : Bool) : Living [] ⟨new enabled,[]⟩ := by
  refine ⟨(coherent_new enabled).toGuarded,ledger_new enabled,⟨by simp,?_⟩,by simp⟩
  exact fun _ => .inl ⟨rfl,rfl,rfl⟩

theorem Living.result_step {sys : System Node TopicCall} (v : Living given sys)
    {e : Event TopicCall (Option String)} (he : TopicEvent e) :
    ∀ c ∈ (step Node.advance sys e).threads, ∀ result, c.point = .returned result →
      result = none ∨ (step Node.advance sys e).shared.enabled = false ∧
        result = some .pubsubNotEnabled := by
  refine forall_threads_step (P := fun (n : Node) (c : TopicCall) =>
    ∀ result, c.point = .returned result →
      result = none ∨ n.enabled = false ∧ result = some .pubsubNotEnabled) v.result ?_ ?_ ?_
  · rintro c rfl result hresult
    obtain ⟨op,name,rfl⟩ := he
    cases op <;> cases hresult
  · rintro i fault c n' c' rfl hi h result hresult
    cases he
    rw [(advance_same h).2.2]
    exact advance_result h (v.kept.rely hi) hresult
  · intro c fault n' c' h d hd
    rwa [(advance_same h).2.2]

theorem Living.kept_advance {sys : System Node TopicCall} (v : Living given sys) {i : ℕ}
    (hi : sys.threads[i]? = some c) (h : sys.shared.advance c none = some (n',c')) :
    lives.Kept (given ++ subscribed sys.shared c none,n') (sys.threads.set i c') := by
  have hlife : c.point.holds ≠ none → Life (given,sys.shared) c := v.kept.rely hi
  have hholds : ∀ {name}, name ≠ c.name ∨ ¬ c.point.holds ≠ none → ∀ {stage topic sub},
      Holds (given,sys.shared) name stage topic sub →
        Holds (given ++ subscribed sys.shared c none,n') name stage topic sub :=
    fun hother _ _ _ hold => hold.stable h v.ledger hlife hother
  apply v.kept.advance hi v.alone (v.toGuarded.advance hi h).alone (advance_same h).2.1
  · exact fun d _ hother hd => Life.mono (hholds hother) hd
  · exact fun name hother hs => Resting.mono (hholds hother) hs
  · exact fun hout hin hs => life_enter h hout hin (Resting.mono (hholds (.inr hout)) hs)
  · exact fun hin hc => life_inside h v.ledger hin hc

theorem Living.step {sys : System Node TopicCall} (v : Living given sys)
    {e : Event TopicCall (Option String)} (he : TopicEvent e) :
    Living (given ++ observed subscribed sys e) (step Node.advance sys e) := by
  have hresult := v.result_step he
  rcases observed_cases subscribed_of_blocked sys e with
    ⟨hsame,hseen⟩ | ⟨c,rfl,hspawn,hseen⟩ | ⟨i,fault,c,n',c',rfl,hi,h,hadvance,hseen⟩
  · rw [hsame,hseen,List.append_nil]
    exact v
  · obtain ⟨op,name,rfl⟩ := he
    rw [hspawn] at hresult ⊢
    rw [hseen,List.append_nil]
    exact ⟨v.toGuarded.spawn op name,v.ledger,
      v.kept.spawn (not_not.mpr (holds_call op name)),hresult⟩
  · cases he
    rw [hadvance] at hresult ⊢
    rw [hseen]
    have hledger := v.ledger.step (advance_pubSubStep h) (ready_of_life (v.kept.rely hi))
    exact ⟨v.toGuarded.advance hi h,hledger,v.kept_advance hi h,hresult⟩

def LockFree (n : Node) (name : String) : Prop :=
  ∀ m, n.joinLocks name = some m → n.mutexes[m]? = some false

theorem Guarded.outside_of_lockFree {sys : System Node TopicCall} (v : Guarded sys)
    (hfree : LockFree sys.shared name) {i : ℕ} (hi : sys.threads[i]? = some c)
    (hname : c.name = name) : ¬ c.point.holds ≠ none := by
  intro hin
  obtain ⟨m,hm⟩ := Option.ne_none_iff_exists'.mp hin
  have hlocked : sys.shared.mutexes[m]? = some true := v.exclusive.locked hi hm
  have hlock := v.lockOf hi (mutex_of_holds hm)
  rw [hname] at hlock
  rw [hfree m hlock] at hlocked
  cases hlocked

theorem Resting.agree (h : Resting (given,n) name) :
    ((n.topics name).isSome ↔ (n.subs name).isSome) ∧
      ((n.subs name).isSome ↔ (n.pubsub.joined name).isSome) := by
  rcases h with habsent | ⟨topic,sub,hsubscribed⟩
  · have hjoined : n.pubsub.joined name = none := habsent.stage
    rw [habsent.topics,habsent.subs,hjoined]
    simp
  · have hjoined : n.pubsub.joined name = some topic := hsubscribed.stage.1
    rw [hsubscribed.topics,hsubscribed.subs,hjoined]
    simp

/-- What callers of `JoinTopic` and `LeaveTopic` may count on in a state of the node, given
which subscriptions were obtained from which handles. -/
structure Exclusion (enabled : Bool) (given : List (ℕ × ℕ)) (sys : System Node TopicCall) :
    Prop where
  /-- Whoever is about to call `pubsub.Join` finds the name not joined. -/
  join : ∀ c ∈ sys.threads, ∀ m, c.point = .join m → sys.shared.pubsub.joined c.name = none
  /-- No call has failed, but for want of pubsub. -/
  returned : ∀ c ∈ sys.threads, ∀ result, c.point = .returned result →
    result = none ∨ enabled = false ∧ result = some .pubsubNotEnabled
  /-- No handle has been closed twice, no subscription cancelled twice. -/
  closed : sys.shared.pubsub.closed.Nodup
  cancelled : sys.shared.pubsub.cancelled.Nodup
  /-- A closed handle had a subscription, which has been cancelled. -/
  order : ∀ topic ∈ sys.shared.pubsub.closed, (∃ sub, (topic,sub) ∈ given) ∧
    ∀ sub, (topic,sub) ∈ given → sub ∈ sys.shared.pubsub.cancelled
  /-- The next step of a call leaves the entries of every other name alone. -/
  frame : ∀ c ∈ sys.threads, ∀ n' c', sys.shared.advance c none = some (n',c') →
    ∀ name, name ≠ c.name → n'.topics name = sys.shared.topics name ∧
      n'.subs name = sys.shared.subs name ∧
      n'.pubsub.joined name = sys.shared.pubsub.joined name
  /-- While its lock is free, a name is in both maps and joined in pubsub, or in none. -/
  agree : ∀ name, LockFree sys.shared name →
    ((sys.shared.topics name).isSome ↔ (sys.shared.subs name).isSome) ∧
      ((sys.shared.subs name).isSome ↔ (sys.shared.pubsub.joined name).isSome)

theorem Living.join {sys : System Node TopicCall} (v : Living given sys) (hc : c ∈ sys.threads)
    {m : ℕ} (hpoint : c.point = .join m) : sys.shared.pubsub.joined c.name = none := by
  obtain ⟨i,hi⟩ := List.mem_iff_getElem?.mp hc
  have hin : c.point.holds ≠ none := by simp [hpoint,Point.holds,Point.mutex]
  have hlife : Life (given,sys.shared) c := v.kept.rely hi hin
  cases hop : c.op with
  | joinTopic =>
    rw [Life,hop,hpoint] at hlife
    exact hlife.stage
  | leaveTopic =>
    rw [Life,hop,hpoint] at hlife
    exact hlife.elim

/-- Joins and leaves exclude each other on every topic, at every point of every interleaving
of any number of calls. -/
theorem joinTopic_leaveTopic_exclusive (enabled : Bool)
    (es : List (Event TopicCall (Option String))) (hes : ∀ e ∈ es, TopicEvent e) :
    Exclusion enabled (trace advance subscribed ⟨new enabled,[]⟩ es)
      (run advance ⟨new enabled,[]⟩ es) := by
  have v : Living ([] ++ trace advance subscribed ⟨new enabled,[]⟩ es)
      (run advance ⟨new enabled,[]⟩ es) :=
    invariant_trace (fun _ _ _ hinv he => hinv.step he) (living_new enabled) hes
  rw [List.nil_append] at v
  have henabled : (run advance ⟨new enabled,[]⟩ es).shared.enabled = enabled :=
    run_enabled ⟨new enabled,[]⟩ es
  refine { join := fun c hc m hpoint => v.join hc hpoint
           returned := fun c hc result hpoint => henabled ▸ v.result c hc result hpoint
           closed := v.ledger.closed_nodup
           cancelled := v.ledger.cancelled_nodup
           order := ?_
           frame := fun c _ n' c' h name hne => advance_frame h hne
           agree := ?_ }
  · intro topic htopic
    obtain ⟨sub,hgiven,hcancelled⟩ := v.ledger.closed_cancelled htopic
    refine ⟨⟨sub,hgiven⟩,fun sub' hgiven' => ?_⟩
    rwa [v.ledger.given_sub hgiven' hgiven]
  · intro name hfree
    have hrest : Resting (_,(run advance ⟨new enabled,[]⟩ es).shared) name :=
      v.kept.idle fun hi hname => v.outside_of_lockFree hfree hi hname
    exact hrest.agree

def leaveThenJoin : List (Event TopicCall (Option String)) :=
  .spawn (call .joinTopic "t") :: (List.replicate 9 (.advance 0 none)).append
    [.spawn (call .leaveTopic "t"),.advance 1 none,.advance 1 none,.advance 1 none,
      .advance 1 none,.advance 1 none,.spawn (call .joinTopic "t"),.advance 2 none,
      .advance 2 none,.advance 2 none,.advance 1 none]

theorem exclusive_leaveThenJoin :
    Exclusion true (trace advance subscribed ⟨new true,[]⟩ leaveThenJoin)
      (run advance ⟨new true,[]⟩ leaveThenJoin) :=
  joinTopic_leaveTopic_exclusive true leaveThenJoin (by simp [leaveThenJoin,TopicEvent])

end P2PForge.Node
