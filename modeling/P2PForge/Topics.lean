import P2PForge.Interleaving

/-! Topics of a node.
Every map operation, lock acquisition and pubsub call of `JoinTopic` and `LeaveTopic` is one
atomic step, and any number of calls run interleaved. Each point inside a critical section
fixes which of pubsub, the topics map and the subscriptions map know the name; outside of it
the three agree. -/
namespace P2PForge

open Interleaving

inductive TopicErr
  | pubsubNotEnabled
  | join (name cause : String)
  | subscribe (name cause : String)
  | close (name cause : String)
  | notJoined (name : String)
  deriving DecidableEq

def TopicErr.error : TopicErr → String
  | .pubsubNotEnabled => "pubsub not enabled"
  | .join name cause => "join topic " ++ name ++ ": " ++ cause
  | .subscribe name cause => "subscribe topic " ++ name ++ ": " ++ cause
  | .close name cause => "close topic " ++ name ++ ": " ++ cause
  | .notJoined name => "topic " ++ name ++ " not joined"

/-- The pubsub library as the node sees it: the open handle of every joined topic, how many
handles and subscriptions were given out, and which of them were closed and cancelled. -/
structure PubSub where
  joined : String → Option ℕ
  handles : ℕ
  subscriptions : ℕ
  closed : List ℕ
  cancelled : List ℕ

/-- A node with its per-topic locks; a mutex is known by its number. -/
structure Node where
  enabled : Bool
  pubsub : PubSub
  topics : String → Option ℕ
  subs : String → Option ℕ
  joinLocks : String → Option ℕ
  mutexes : List Bool

inductive TopicOp
  | joinTopic | leaveTopic
  deriving DecidableEq

/-- Where a call stands, by the operation it does next. -/
inductive Point
  | loadTopic
  | loadLock
  | lock (m : ℕ)
  | recheck (m : ℕ)
  | join (m : ℕ)
  | subscribe (m topic : ℕ)
  | storeTopic (m topic sub : ℕ)
  | storeSub (m sub : ℕ)
  | takeSub (m : ℕ)
  | cancel (m sub : ℕ)
  | takeTopic (m : ℕ)
  | close (m topic : ℕ)
  | unlock (m : ℕ) (result : Option TopicErr)
  | returned (result : Option TopicErr)
  deriving DecidableEq

def TopicOp.enter : TopicOp → ℕ → Point
  | .joinTopic,m => .recheck m
  | .leaveTopic,m => .takeSub m

def Point.mutex : Point → Option ℕ
  | .loadTopic | .loadLock | .returned _ => none
  | .lock m | .recheck m | .join m | .subscribe m _ | .storeTopic m _ _ | .storeSub m _
  | .takeSub m | .cancel m _ | .takeTopic m | .close m _ | .unlock m _ => some m

def Point.holds : Point → Option ℕ
  | .lock _ => none
  | p => p.mutex

@[simp] theorem mutex_enter (op : TopicOp) (m : ℕ) : (op.enter m).mutex = some m := by
  cases op <;> rfl

@[simp] theorem holds_enter (op : TopicOp) (m : ℕ) : (op.enter m).holds = some m := by
  cases op <;> rfl

structure TopicCall where
  op : TopicOp
  name : String
  point : Point
  deriving DecidableEq

namespace Node

def new (enabled : Bool) : Node :=
  ⟨enabled,⟨fun _ => none,0,0,[],[]⟩,fun _ => none,fun _ => none,fun _ => none,[]⟩

/-- `Publish` up to the handle it publishes on. -/
def publish (n : Node) (topic : String) : Except TopicErr ℕ :=
  match n.topics topic with
  | none => .error (.notJoined topic)
  | some handle => .ok handle

def subscribe (n : Node) (topic : String) : Option ℕ := n.subs topic

def call (op : TopicOp) (name : String) : TopicCall :=
  match op with
  | .joinTopic => ⟨.joinTopic,name,.loadTopic⟩
  | .leaveTopic => ⟨.leaveTopic,name,.loadLock⟩

/-- The next atomic step of a call. `pubsub.Join` fails if the topic is joined already;
`topic.Subscribe` and `topic.Close` fail if the environment says so, with its error. -/
def advance (n : Node) (c : TopicCall) (fault : Option String) : Option (Node × TopicCall) :=
  match c.point with
  | .loadTopic =>
    if ¬ n.enabled then some (n,{ c with point := .returned (some .pubsubNotEnabled) })
    -- the fast path: no lock, and only one of the two maps
    else if (n.topics c.name).isSome then some (n,{ c with point := .returned none })
    else some (n,{ c with point := .loadLock })
  | .loadLock =>
    match n.joinLocks c.name with
    | some m => some (n,{ c with point := .lock m })
    | none =>
      some ({ n with
        joinLocks := Function.update n.joinLocks c.name (some n.mutexes.length)
        mutexes := n.mutexes ++ [false] },{ c with point := .lock n.mutexes.length })
  | .lock m =>
    if n.mutexes[m]? = some false then
      some ({ n with mutexes := n.mutexes.set m true },
        { c with point := c.op.enter m })
    else none
  | .recheck m =>
    if (n.topics c.name).isSome then some (n,{ c with point := .unlock m none })
    else some (n,{ c with point := .join m })
  | .join m =>
    match n.pubsub.joined c.name with
    | some _ =>
      some (n,{ c with
        point := .unlock m (some (.join c.name (fault.getD "topic already exists"))) })
    | none =>
      let topic := n.pubsub.handles
      some ({ n with pubsub := { n.pubsub with
        joined := Function.update n.pubsub.joined c.name (some topic)
        handles := topic + 1 } },{ c with point := .subscribe m topic })
  | .subscribe m topic =>
    match fault with
    | some cause => some (n,{ c with point := .unlock m (some (.subscribe c.name cause)) })
    | none =>
      let sub := n.pubsub.subscriptions
      some ({ n with pubsub := { n.pubsub with subscriptions := sub + 1 } },
        { c with point := .storeTopic m topic sub })
  | .storeTopic m topic sub =>
    some ({ n with topics := Function.update n.topics c.name (some topic) },
      { c with point := .storeSub m sub })
  | .storeSub m sub =>
    some ({ n with subs := Function.update n.subs c.name (some sub) },
      { c with point := .unlock m none })
  | .takeSub m =>
    match n.subs c.name with
    | some sub =>
      some ({ n with subs := Function.update n.subs c.name none },
        { c with point := .cancel m sub })
    | none => some (n,{ c with point := .takeTopic m })
  | .cancel m sub =>
    some ({ n with pubsub := { n.pubsub with cancelled := sub :: n.pubsub.cancelled } },
      { c with point := .takeTopic m })
  | .takeTopic m =>
    match n.topics c.name with
    | some topic =>
      some ({ n with topics := Function.update n.topics c.name none },
        { c with point := .close m topic })
    | none => some (n,{ c with point := .unlock m none })
  | .close m topic =>
    match fault with
    | some cause => some (n,{ c with point := .unlock m (some (.close c.name cause)) })
    | none =>
      some ({ n with pubsub := { n.pubsub with
        joined := Function.update n.pubsub.joined c.name none
        closed := topic :: n.pubsub.closed } },{ c with point := .unlock m none })
  | .unlock m result =>
    some ({ n with mutexes := n.mutexes.set m false },{ c with point := .returned result })
  | .returned _ => none

end Node

namespace Node

variable {n n' : Node} {c c' : TopicCall} {fault : Option String}

theorem advance_same (h : n.advance c fault = some (n',c')) :
    c'.op = c.op ∧ c'.name = c.name ∧ n'.enabled = n.enabled := by
  revert h
  fun_cases advance n c fault <;> intro h <;> cases h <;> exact ⟨rfl,rfl,rfl⟩

theorem advance_outside (h : n.advance c fault = some (n',c')) (hout : c.point.holds = none) :
    n'.topics = n.topics ∧ n'.subs = n.subs ∧ n'.pubsub = n.pubsub := by
  revert h
  fun_cases advance n c fault <;> intro h <;> cases h <;> simp_all [Point.holds,Point.mutex]

theorem advance_frame (h : n.advance c fault = some (n',c')) {name : String} (hne : name ≠ c.name) :
    n'.topics name = n.topics name ∧ n'.subs name = n.subs name ∧
      n'.pubsub.joined name = n.pubsub.joined name := by
  revert h
  fun_cases advance n c fault <;> intro h <;> cases h <;> simp [Function.update_of_ne hne]

theorem advance_joinLocks (h : n.advance c fault = some (n',c')) {name : String} {m : ℕ}
    (hm : n.joinLocks name = some m) : n'.joinLocks name = some m := by
  revert h
  fun_cases advance n c fault with
  | case5 _ _ hnone =>
    -- the call that makes the mutex found none
    intro h
    cases h
    have hne : name ≠ c.name := by
      rintro rfl
      rw [hnone] at hm
      cases hm
    exact (Function.update_of_ne hne _ _).trans hm
  | _ =>
    intro h
    cases h <;> exact hm

theorem advance_mutex (h : n.advance c fault = some (n',c')) {m : ℕ}
    (hm : c'.point.mutex = some m) : c.point.mutex = some m ∨ n'.joinLocks c.name = some m := by
  revert h hm
  fun_cases advance n c fault with
  | case6 _ k hpoint hfree =>
    -- `Lock`: the call goes on with the mutex it has looked up
    intro h hm
    cases h
    rw [mutex_enter] at hm
    rw [hpoint]
    exact .inl hm
  | _ =>
    intro h
    cases h <;> simp_all [Point.mutex]

def locking : Locking advance ℕ where
  holds c := c.point.holds
  locked n m := n.mutexes[m]? = some true
  taken := by
    intro n c fault n' c' m h hm hheld
    revert h hm
    fun_cases advance n c fault with
    | case6 _ k hpoint hfree =>
      intro h hm
      cases h
      obtain rfl : k = m := by simpa using hm
      obtain ⟨hlt,_⟩ := List.getElem?_eq_some_iff.mp hfree
      exact List.getElem?_set_self hlt
    | _ =>
      intro h
      cases h <;> simp_all [Point.holds,Point.mutex]
  free := by
    intro n c fault n' c' m h hm hheld
    revert h hm
    fun_cases advance n c fault with
    | case6 _ k hpoint hfree =>
      intro h hm
      cases h
      obtain rfl : k = m := by simpa using hm
      simp [hfree]
    | _ =>
      intro h
      cases h <;> simp_all [Point.holds,Point.mutex]
  kept := by
    intro n c fault n' c' m h hm hheld
    revert h
    obtain ⟨hlt,_⟩ := List.getElem?_eq_some_iff.mp hm
    fun_cases advance n c fault with
    | case5 =>
      -- a new mutex is put behind the others
      intro h
      cases h
      exact (List.getElem?_append_left hlt).trans hm
    | case6 _ k hpoint hfree =>
      -- `Lock` of a mutex that is free, and `m` is not
      intro h
      cases h
      have hne : k ≠ m := by
        rintro rfl
        rw [hfree] at hm
        cases hm
      exact (List.getElem?_set_ne hne).trans hm
    | case23 _ k result hpoint =>
      -- `Unlock` by a call that does not hold `m`
      intro h
      cases h
      have hne : k ≠ m := by
        rintro rfl
        exact hheld (by simp [hpoint,Point.holds,Point.mutex])
      exact (List.getElem?_set_ne hne).trans hm
    | _ =>
      intro h
      cases h <;> exact hm

def known (n : Node) (name : String) : Bool × Bool × Bool :=
  ((n.pubsub.joined name).isSome,(n.topics name).isSome,(n.subs name).isSome)

def Settled (n : Node) (name : String) : Prop :=
  n.known name = (false,false,false) ∨ n.known name = (true,true,true)

/-- What a call that stands inside its critical section may rely on. -/
def Phase (n : Node) (c : TopicCall) : Prop :=
  match c.op,c.point with
  | _,.loadTopic | _,.loadLock | _,.lock _ | _,.returned _ => True
  | .joinTopic,.recheck _ | .leaveTopic,.takeSub _ => n.Settled c.name
  | .joinTopic,.join _ => n.known c.name = (false,false,false)
  | .joinTopic,.subscribe _ _ | .joinTopic,.storeTopic _ _ _ | .leaveTopic,.close _ _ =>
    n.known c.name = (true,false,false)
  | .joinTopic,.storeSub _ _ | .leaveTopic,.cancel _ _ => n.known c.name = (true,true,false)
  | .leaveTopic,.takeTopic _ =>
    n.known c.name = (true,true,false) ∨ n.known c.name = (false,false,false)
  | .joinTopic,.unlock _ result => result = none ∧ n.known c.name = (true,true,true)
  | .leaveTopic,.unlock _ result => result = none ∧ n.known c.name = (false,false,false)
  | _,_ => False

theorem Phase.congr (h : n.Phase c) (hknown : n'.known c.name = n.known c.name) : n'.Phase c := by
  unfold Phase Settled at h ⊢
  rw [hknown]
  exact h

theorem phase_of_holds_none (h : c.point.holds = none) : n.Phase c := by
  unfold Phase
  cases hpoint : c.point <;> simp_all [Point.holds,Point.mutex]

/-- A step inside the critical section leads to the next phase or out of it, with the
entries settled; the pubsub calls are assumed not to fail. -/
theorem advance_inside {m : ℕ} (h : n.advance c fault = some (n',c')) (hfault : fault = none)
    (hin : c.point.holds = some m) (hphase : n.Phase c) :
    n'.Phase c' ∧ (c'.point.holds = none → n'.Settled c.name) := by
  revert h
  fun_cases advance n c fault <;> intro h <;> cases h <;> cases hop : c.op <;>
    simp_all [Phase,Settled,known,Point.holds,Point.mutex]

theorem advance_enter (h : n.advance c fault = some (n',c')) (hout : c.point.holds = none)
    (hsettled : c'.point.holds ≠ none → n.Settled c.name) : n'.Phase c' := by
  obtain ⟨htopics,hsubs,hpubsub⟩ := advance_outside h hout
  have hknown : n'.known c.name = n.known c.name := by
    rw [known,known,htopics,hsubs,hpubsub]
  by_cases hholds : c'.point.holds = none
  · exact phase_of_holds_none hholds
  · have hs : n'.Settled c.name := by
      rw [Settled,hknown]
      exact hsettled hholds
    revert h hholds
    fun_cases advance n c fault <;> intro h <;> cases h <;> cases hop : c.op <;>
      simp_all [Phase,TopicOp.enter,Point.holds,Point.mutex]

theorem holds_call (op : TopicOp) (name : String) : (call op name).point.holds = none := by
  cases op <;> rfl

theorem mutex_call (op : TopicOp) (name : String) : (call op name).point.mutex = none := by
  cases op <;> rfl

theorem mutex_of_holds {p : Point} {m : ℕ} (h : p.holds = some m) : p.mutex = some m := by
  cases p <;> simp_all [Point.holds,Point.mutex]

/-- Every mutex has at most one holder, and calls on one topic use the same mutex. -/
structure Guarded (sys : System Node TopicCall) : Prop where
  exclusive : locking.Exclusive sys
  lockOf : ∀ {i : ℕ} {c m}, sys.threads[i]? = some c → c.point.mutex = some m →
    sys.shared.joinLocks c.name = some m

namespace Guarded

variable {sys : System Node TopicCall} (v : Guarded sys)
include v

theorem spawn (op : TopicOp) (name : String) :
    Guarded { sys with threads := sys.threads ++ [call op name] } := by
  refine ⟨v.exclusive.spawn (holds_call op name),?_⟩
  intro i c m hi hm
  rcases getElem?_concat hi with hold | ⟨_,rfl⟩
  · exact v.lockOf hold hm
  · rw [mutex_call] at hm
    cases hm

theorem advance {i : ℕ} (hi : sys.threads[i]? = some c)
    (h : sys.shared.advance c fault = some (n',c')) : Guarded ⟨n',sys.threads.set i c'⟩ := by
  refine ⟨v.exclusive.advance hi h,?_⟩
  intro j d m hj hm
  rcases getElem?_set_of_some hi hj with ⟨rfl,rfl⟩ | ⟨_,hold⟩
  · rw [(advance_same h).2.1]
    rcases advance_mutex h hm with hbefore | hnow
    · exact advance_joinLocks h (v.lockOf hi hbefore)
    · exact hnow
  · exact advance_joinLocks h (v.lockOf hold hm)

theorem eq_of_holds {i j : ℕ} {c d : TopicCall} (hi : sys.threads[i]? = some c)
    (hj : sys.threads[j]? = some d) (hname : c.name = d.name) (hc : c.point.holds ≠ none)
    (hd : d.point.holds ≠ none) : i = j := by
  obtain ⟨m,hm⟩ := Option.ne_none_iff_exists'.mp hc
  obtain ⟨k,hk⟩ := Option.ne_none_iff_exists'.mp hd
  have hlock := v.lockOf hi (mutex_of_holds hm)
  rw [hname,v.lockOf hj (mutex_of_holds hk)] at hlock
  obtain rfl := Option.some.inj hlock
  exact v.exclusive.unique hi hj hm hk

end Guarded

/-- The invariant of the topic calls: besides being guarded, each call finds the entries of
its topic as its phase says, and they are settled while no call is inside. -/
structure Coherent (sys : System Node TopicCall) : Prop extends Guarded sys where
  phase : ∀ {i : ℕ} {c}, sys.threads[i]? = some c → sys.shared.Phase c
  settled : ∀ {name}, (∀ {i : ℕ} {c}, sys.threads[i]? = some c → c.name = name →
    c.point.holds = none) → sys.shared.Settled name

theorem coherent_new (enabled : Bool) : Coherent ⟨new enabled,[]⟩ := by
  refine ⟨⟨⟨by simp,by simp⟩,by simp⟩,by simp,?_⟩
  intro name _
  exact .inl rfl

theorem known_of_outside (h : n.advance c fault = some (n',c')) (hout : c.point.holds = none)
    (name : String) : n'.known name = n.known name := by
  obtain ⟨htopics,hsubs,hpubsub⟩ := advance_outside h hout
  rw [known,known,htopics,hsubs,hpubsub]

theorem known_of_ne (h : n.advance c fault = some (n',c')) {name : String} (hne : name ≠ c.name) :
    n'.known name = n.known name := by
  obtain ⟨htopics,hsubs,hjoined⟩ := advance_frame h hne
  rw [known,known,htopics,hsubs,hjoined]

/-- The entries of a topic, with its callers in their phases and settled between them. -/
def entries : Monitor Node TopicCall String where
  name c := c.name
  inside c := c.point.holds ≠ none
  rely n c := n.Phase c
  idle n name := n.Settled name

theorem Guarded.alone {sys : System Node TopicCall} (v : Guarded sys) :
    entries.Alone sys.threads :=
  fun hi hj hname hc hd => v.eq_of_holds hi hj hname hc hd

theorem Phase.stable (h : n.advance c fault = some (n',c')) {d : TopicCall} (hd : n.Phase d)
    (hother : d.name ≠ c.name ∨ ¬ c.point.holds ≠ none) : n'.Phase d := by
  apply hd.congr
  rcases hother with hne | hout
  · exact known_of_ne h hne
  · exact known_of_outside h (not_not.mp hout) d.name

theorem Settled.stable (h : n.advance c fault = some (n',c')) {name : String}
    (hs : n.Settled name) (hother : name ≠ c.name ∨ ¬ c.point.holds ≠ none) :
    n'.Settled name := by
  have hknown : n'.known name = n.known name := by
    rcases hother with hne | hout
    · exact known_of_ne h hne
    · exact known_of_outside h (not_not.mp hout) name
  rwa [Settled,hknown]

namespace Coherent

variable {sys : System Node TopicCall} (v : Coherent sys)
include v

theorem kept : entries.Kept sys.shared sys.threads :=
  ⟨fun hi _ => v.phase hi,fun hfree => v.settled fun hi hname => not_not.mp (hfree hi hname)⟩

theorem spawn (op : TopicOp) (name : String) :
    Coherent { sys with threads := sys.threads ++ [call op name] } := by
  have hkept := v.kept.spawn (l := call op name) (not_not.mpr (holds_call op name))
  refine ⟨v.toGuarded.spawn op name,?_,?_⟩
  · intro i c hi
    by_cases hc : c.point.holds = none
    · exact phase_of_holds_none hc
    · exact hkept.rely hi hc
  · intro name' hfree
    exact hkept.idle fun hi hname => not_not.mpr (hfree hi hname)

theorem advance {i : ℕ} (hi : sys.threads[i]? = some c)
    (h : sys.shared.advance c fault = some (n',c')) (hfault : fault = none) :
    Coherent ⟨n',sys.threads.set i c'⟩ := by
  have hguarded := v.toGuarded.advance hi h
  have hkept : entries.Kept n' (sys.threads.set i c') := by
    apply v.kept.advance hi v.alone hguarded.alone (advance_same h).2.1
    · exact fun d _ hother hd => Phase.stable h hd hother
    · exact fun name hother hs => Settled.stable h hs hother
    · exact fun hout _ hs => advance_enter h (not_not.mp hout) fun _ => hs
    · intro hin hphase
      obtain ⟨m,hm⟩ := Option.ne_none_iff_exists'.mp hin
      obtain ⟨hnext,hleft⟩ := advance_inside h hfault hm hphase
      exact ⟨fun _ => hnext,fun hout => hleft (not_not.mp hout)⟩
  refine ⟨hguarded,?_,?_⟩
  · intro j d hj
    by_cases hd : d.point.holds = none
    · exact phase_of_holds_none hd
    · exact hkept.rely hj hd
  · intro name hfree
    exact hkept.idle fun hj hname => not_not.mpr (hfree hj hname)

end Coherent

/-- An event that starts a topic call or lets one take a step whose pubsub calls succeed. -/
def TopicEvent : Event TopicCall (Option String) → Prop
  | .spawn c => ∃ op name, c = call op name
  | .advance _ fault => fault = none

theorem run_enabled (sys : System Node TopicCall) (es : List (Event TopicCall (Option String))) :
    (run Node.advance sys es).shared.enabled = sys.shared.enabled := by
  have hstep : ∀ sys' e, sys'.shared.enabled = sys.shared.enabled → True →
      (step Node.advance sys' e).shared.enabled = sys.shared.enabled := by
    intro sys' e hsys' _
    rcases step_cases Node.advance sys' e with
      hsame | ⟨c,rfl,hspawn⟩ | ⟨i,fault,c,n',c',rfl,hi,h,hadvance⟩
    · rw [hsame]
      exact hsys'
    · rw [hspawn]
      exact hsys'
    · rw [hadvance]
      exact (advance_same h).2.2.trans hsys'
  exact invariant_run hstep rfl fun _ _ => trivial

theorem Coherent.step {sys : System Node TopicCall} (v : Coherent sys)
    {e : Event TopicCall (Option String)} (he : TopicEvent e) :
    Coherent (step Node.advance sys e) := by
  rcases step_cases Node.advance sys e with
    hsame | ⟨c,rfl,hspawn⟩ | ⟨i,fault,c,n',c',rfl,hi,h,hadvance⟩
  · rw [hsame]
    exact v
  · obtain ⟨op,name,rfl⟩ := he
    rw [hspawn]
    exact v.spawn op name
  · rw [hadvance]
    exact v.advance hi h he

end Node
end P2PForge
