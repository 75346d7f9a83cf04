import P2PForge.Topics
import P2PForge.Custody

/-! Closing a node while its topics are in use.
`Close` takes none of the topic locks: it goes through the two maps as they change and leaves
their entries where they are, and what joins and leaves have in hand it does not see. The two
ranges are one definition, over the handles and over the subscriptions. -/
namespace P2PForge.Node

open Interleaving Custody

/-- What pubsub gives out for a topic, to be closed or cancelled in the end. -/
inductive Item
  | handle | subscription
  deriving DecidableEq

/-- The books of the handles and of the subscriptions, with the map each is kept in. -/
def books (n : Node) : Item → Store String
  | .handle => ⟨n.pubsub.handles,n.topics,n.pubsub.closed⟩
  | .subscription => ⟨n.pubsub.subscriptions,n.subs,n.pubsub.cancelled⟩

/-- What a topic call has obtained or taken out of the map and not yet passed on. -/
def hand (item : Item) (p : Point) : Option ℕ :=
  match item,p with
  | .handle,.subscribe _ topic | .handle,.storeTopic _ topic _
  | .handle,.close _ topic => some topic
  | .subscription,.storeTopic _ _ sub | .subscription,.storeSub _ sub
  | .subscription,.cancel _ sub => some sub
  | _,_ => none

/-- Where a call of `Close` stands, by what it does next. -/
inductive ClosePoint
  | cancel
  | range (item : Item)
  | visit (item : Item) (keys : List String)
  | stop (item : Item) (key : String) (t : ℕ) (keys : List String)
  | closeDHT
  | closeHost
  | returned (err : Option String)
  deriving DecidableEq

/-- What the environment answers to a step: the error of a call, and the keys a range visits. -/
structure Answer where
  fault : Option String
  keys : List String

/-- `Close`. The keys of a range are given when it starts, and each value is loaded as its key is
visited. A handle that pubsub has closed already is closed again to no effect. The context, the
DHT and the host are not part of the state; only the error of the host is returned. -/
def closeStep (n : Node) (p : ClosePoint) (a : Answer) : Option (Node × ClosePoint) :=
  match p with
  | .cancel => some (n,.range .subscription)
  | .range item => some (n,.visit item a.keys)
  | .visit .subscription [] => some (n,.range .handle)
  | .visit .handle [] => some (n,.closeDHT)
  | .visit item (key :: keys) =>
    match (n.books item).table key with
    | none => some (n,.visit item keys)
    | some t => some (n,.stop item key t keys)
  | .stop .subscription _ sub keys =>
    some ({ n with pubsub := { n.pubsub with cancelled := sub :: n.pubsub.cancelled } },
      .visit .subscription keys)
  | .stop .handle key topic keys =>
    match a.fault with
    | some _ => some (n,.visit .handle keys)
    | none =>
      some ({ n with pubsub := { n.pubsub with
        joined := if n.pubsub.joined key = some topic
          then Function.update n.pubsub.joined key none else n.pubsub.joined
        closed := topic :: n.pubsub.closed } },.visit .handle keys)
  | .closeDHT => some (n,.closeHost)
  | .closeHost => some (n,.returned a.fault)
  | .returned _ => none

/-- A step of a join or a leave; pubsub may also refuse a join, as it does once its context is
cancelled. -/
def callStep (n : Node) (c : TopicCall) (fault : Option String) : Option (Node × TopicCall) :=
  match c.point,fault with
  | .join m,some cause => some (n,{ c with point := .unlock m (some (.join c.name cause)) })
  | _,_ => n.advance c fault

inductive Worker
  | call (c : TopicCall)
  | close (p : ClosePoint)
  deriving DecidableEq

def work (n : Node) (w : Worker) (a : Answer) : Option (Node × Worker) :=
  match w with
  | .call c => (n.callStep c a.fault).map fun r => (r.1,.call r.2)
  | .close p => (n.closeStep p a).map fun r => (r.1,.close r.2)

def Worker.hand (item : Item) : Worker → Option ℕ
  | .call c => Node.hand item c.point
  | .close (.stop it _ t _) => if it = item then some t else none
  | .close _ => none

/-- What a step does with a handle or a subscription that the account takes note of. -/
def noted (_ : Node) (w : Worker) (a : Answer) : List (Item × Note) :=
  match w with
  | .call c =>
    match c.point,a.fault with
    | .subscribe _ topic,some _ | .close _ topic,some _ => [(.handle,.lost topic)]
    | .storeTopic _ topic _,_ => [(.handle,.stored topic)]
    | .storeSub _ sub,_ => [(.subscription,.stored sub)]
    | _,_ => []
  | .close (.stop .handle _ topic _) => if a.fault.isSome then [(.handle,.lost topic)] else []
  | .close _ => []

variable {n n' : Node} {c c' : TopicCall} {p p' : ClosePoint} {w w' : Worker} {a : Answer}
  {fault : Option String} {item : Item}

theorem callStep_cases (h : n.callStep c fault = some (n',c')) :
    (∃ m cause, c.point = .join m ∧ n' = n ∧
      c' = { c with point := .unlock m (some (.join c.name cause)) }) ∨
      n.advance c fault = some (n',c') := by
  unfold callStep at h
  split at h
  · rename_i m cause hpoint
    cases h
    exact .inl ⟨m,cause,hpoint,rfl,rfl⟩
  · exact .inr h

theorem work_cases (h : n.work w a = some (n',w')) :
    (∃ c c', w = .call c ∧ w' = .call c' ∧ n.callStep c a.fault = some (n',c')) ∨
      ∃ p p', w = .close p ∧ w' = .close p' ∧ n.closeStep p a = some (n',p') := by
  cases w with
  | call c =>
    obtain ⟨⟨n₁,c'⟩,hstep,hpair⟩ := Option.map_eq_some_iff.mp h
    cases hpair
    exact .inl ⟨c,c',rfl,rfl,hstep⟩
  | close p =>
    obtain ⟨⟨n₁,p'⟩,hstep,hpair⟩ := Option.map_eq_some_iff.mp h
    cases hpair
    exact .inr ⟨p,p',rfl,rfl,hstep⟩

theorem closeStep_same (h : n.closeStep p a = some (n',p')) :
    n'.topics = n.topics ∧ n'.subs = n.subs ∧ n'.joinLocks = n.joinLocks ∧
      n'.mutexes = n.mutexes := by
  revert h
  fun_cases closeStep n p a <;> intro h <;> cases h <;> exact ⟨rfl,rfl,rfl,rfl⟩

def notesOf (item : Item) (seen : List (Item × Note)) : List Note :=
  seen.filterMap fun x => if x.1 = item then some x.2 else none

theorem mem_notesOf {note : Note} {seen : List (Item × Note)} :
    note ∈ notesOf item seen ↔ (item,note) ∈ seen := by
  simp [notesOf,List.mem_filterMap,eq_comm]

theorem closeStep_moves (item : Item) (h : n.closeStep p a = some (n',p')) :
    (∃ key keys, p = .visit item (key :: keys) ∧ n' = n ∧
      Worker.hand item (.close p') = (n.books item).table key) ∨
      (∀ key keys, p ≠ .visit item (key :: keys)) ∧
        Move (n.books item) (Worker.hand item (.close p)) (n'.books item)
          (Worker.hand item (.close p')) (notesOf item (noted n (.close p) a)) := by
  revert h
  fun_cases closeStep n p a with
  | case5 it key keys hnone =>
    intro h
    cases h
    by_cases hit : it = item
    · subst hit
      exact .inl ⟨key,keys,rfl,rfl,hnone.symm⟩
    · exact .inr ⟨by simp [hit],.keep⟩
  | case6 it key keys t hsome =>
    intro h
    cases h
    by_cases hit : it = item
    · subst hit
      refine .inl ⟨key,keys,rfl,rfl,?_⟩
      rw [hsome]
      exact if_pos rfl
    · have hempty : Worker.hand item (.close (.stop it key t keys)) = none := if_neg hit
      rw [hempty]
      exact .inr ⟨by simp [hit],.keep⟩
  | _ =>
    intro h
    cases h <;> right <;> cases item <;> simp_all [Worker.hand,notesOf,noted,books] <;>
      first
      | exact .keep
      | exact .finish
      | exact .drop

/-- What the caller inside the critical section of a topic knows of its entries in the maps,
whatever pubsub answers. -/
def Maps (n : Node) (c : TopicCall) : Prop :=
  match c.op,c.point with
  | _,.loadTopic | _,.loadLock | _,.lock _ | _,.returned _ => True
  | .joinTopic,.recheck _ | .leaveTopic,.takeSub _ | _,.unlock _ _ =>
    (n.topics c.name).isSome = (n.subs c.name).isSome
  | .joinTopic,.join _ | .joinTopic,.subscribe _ _ | .joinTopic,.storeTopic _ _ _
  | .leaveTopic,.close _ _ => n.topics c.name = none ∧ n.subs c.name = none
  | .joinTopic,.storeSub _ _ => (n.topics c.name).isSome ∧ n.subs c.name = none
  | .leaveTopic,.cancel _ _ | .leaveTopic,.takeTopic _ => n.subs c.name = none
  | _,_ => False

theorem callStep_same (h : n.callStep c fault = some (n',c')) :
    c'.op = c.op ∧ c'.name = c.name := by
  rcases callStep_cases h with ⟨m,cause,_,rfl,rfl⟩ | hadvance
  · exact ⟨rfl,rfl⟩
  · exact ⟨(advance_same hadvance).1,(advance_same hadvance).2.1⟩

/-- A call changes the maps for no name but its own, and for that only inside. -/
theorem callStep_frame (h : n.callStep c fault = some (n',c')) {name : String}
    (hother : name ≠ c.name ∨ c.point.holds = none) :
    n'.topics name = n.topics name ∧ n'.subs name = n.subs name := by
  rcases callStep_cases h with ⟨m,cause,_,rfl,_⟩ | hadvance
  · exact ⟨rfl,rfl⟩
  · rcases hother with hne | hout
    · obtain ⟨htopics,hsubs,_⟩ := advance_frame hadvance hne
      exact ⟨htopics,hsubs⟩
    · obtain ⟨htopics,hsubs,_⟩ := advance_outside hadvance hout
      exact ⟨congrFun htopics name,congrFun hsubs name⟩

theorem maps_inside (h : n.callStep c fault = some (n',c')) (hin : c.point.holds ≠ none)
    (hmaps : n.Maps c) :
    n'.Maps c' ∧ (c'.point.holds = none →
      (n'.topics c.name).isSome = (n'.subs c.name).isSome) := by
  rcases callStep_cases h with ⟨m,cause,hpoint,rfl,rfl⟩ | hadvance
  · cases hop : c.op <;> simp_all [Maps,Point.holds,Point.mutex]
  · revert hadvance
    fun_cases advance n c fault <;> intro hadvance <;> cases hadvance <;> cases hop : c.op <;>
      simp_all [Maps,Point.holds,Point.mutex]

theorem maps_enter (h : n.callStep c fault = some (n',c')) (hout : c.point.holds = none)
    (hin : c'.point.holds ≠ none) (hagree : (n.topics c.name).isSome = (n.subs c.name).isSome) :
    n'.Maps c' := by
  rcases callStep_cases h with ⟨m,cause,hpoint,rfl,rfl⟩ | hadvance
  · simp [hpoint,Point.holds,Point.mutex] at hout
  · revert hadvance hin
    fun_cases advance n c fault <;> intro hin hadvance <;> cases hadvance <;> cases hop : c.op <;>
      simp_all [Maps,TopicOp.enter,Point.holds,Point.mutex]

theorem callStep_moves (item : Item) (h : n.callStep c a.fault = some (n',c'))
    (hmaps : c.point.holds ≠ none → n.Maps c) :
    Move (n.books item) (hand item c.point) (n'.books item) (hand item c'.point)
      (notesOf item (noted n (.call c) a)) := by
  generalize hfault : a.fault = fault at h
  rcases callStep_cases h with ⟨m,cause,hpoint,rfl,rfl⟩ | hadvance
  · cases item <;> simp [hpoint,hand,notesOf,noted] <;> exact .keep
  · revert hadvance
    fun_cases advance n c fault <;> intro hadvance <;> cases hadvance <;> cases hop : c.op <;>
      cases item <;>
      simp_all [Maps,Point.holds,Point.mutex,hand,notesOf,noted,books,TopicOp.enter] <;>
      first
      | exact .keep
      | exact .make
      | (apply Move.put; simp_all)
      | (apply Move.take; simp_all)
      | exact .finish
      | exact .drop

def Worker.holds : Worker → Option ℕ
  | .call c => c.point.holds
  | .close _ => none

theorem callStep_lock (h : n.callStep c fault = some (n',c')) :
    n.advance c fault = some (n',c') ∨ n' = n ∧ c'.point.mutex = c.point.mutex ∧
      c'.point.holds = c.point.holds := by
  rcases callStep_cases h with ⟨m,cause,hpoint,rfl,rfl⟩ | hadvance
  · exact .inr ⟨rfl,by rw [hpoint]; rfl,by rw [hpoint]; rfl⟩
  · exact .inl hadvance

def workLocking : Locking work ℕ where
  holds := Worker.holds
  locked n m := n.mutexes[m]? = some true
  taken := by
    intro n w a n' w' m h hm hheld
    rcases work_cases h with ⟨c,c',rfl,rfl,hstep⟩ | ⟨p,p',rfl,rfl,_⟩
    · rcases callStep_lock hstep with hadvance | ⟨rfl,_,hsame⟩
      · exact locking.taken hadvance hm hheld
      · exact hheld (hsame.symm.trans hm)
    · cases hm
  free := by
    intro n w a n' w' m h hm hheld
    rcases work_cases h with ⟨c,c',rfl,rfl,hstep⟩ | ⟨p,p',rfl,rfl,_⟩
    · rcases callStep_lock hstep with hadvance | ⟨rfl,_,hsame⟩
      · exact locking.free hadvance hm hheld
      · exact absurd (hsame.symm.trans hm) hheld
    · cases hm
  kept := by
    intro n w a n' w' m h hm hheld
    rcases work_cases h with ⟨c,c',rfl,rfl,hstep⟩ | ⟨p,p',rfl,rfl,hstep⟩
    · rcases callStep_lock hstep with hadvance | ⟨rfl,_⟩
      · exact locking.kept hadvance hm hheld
      · exact hm
    · rw [(closeStep_same hstep).2.2.2]
      exact hm

def mapEntries : Monitor Node Worker String where
  name
    | .call c => c.name
    | .close _ => ""
  inside w := w.holds ≠ none
  rely n
    | .call c => n.Maps c
    | .close _ => True
  idle n name := (n.topics name).isSome = (n.subs name).isSome

def Fresh (w : Worker) : Prop := (∃ op name, w = .call (call op name)) ∨ w = .close .cancel

theorem Fresh.outside (h : Fresh w) : w.holds = none := by
  rcases h with ⟨op,name,rfl⟩ | rfl
  · exact holds_call op name
  · rfl

structure Locked (sys : System Node Worker) : Prop where
  exclusive : workLocking.Exclusive sys
  lockOf : ∀ {i : ℕ} {c m}, sys.threads[i]? = some (.call c) → c.point.mutex = some m →
    sys.shared.joinLocks c.name = some m

namespace Locked

variable {sys : System Node Worker} (v : Locked sys)
include v

theorem spawn (hw : Fresh w) : Locked { sys with threads := sys.threads ++ [w] } := by
  refine ⟨v.exclusive.spawn hw.outside,?_⟩
  intro i c m hi hm
  rcases getElem?_concat hi with hold | ⟨_,rfl⟩
  · exact v.lockOf hold hm
  · rcases hw with ⟨op,name,hcall⟩ | hclose
    · cases hcall
      rw [mutex_call] at hm
      cases hm
    · cases hclose

theorem advance {i : ℕ} (hi : sys.threads[i]? = some w)
    (h : sys.shared.work w a = some (n',w')) : Locked ⟨n',sys.threads.set i w'⟩ := by
  refine ⟨v.exclusive.advance hi h,?_⟩
  have hkept : ∀ {name m}, sys.shared.joinLocks name = some m → n'.joinLocks name = some m := by
    intro name m hm
    rcases work_cases h with ⟨c,c',_,_,hstep⟩ | ⟨p,p',_,_,hstep⟩
    · rcases callStep_lock hstep with hadvance | ⟨hsame,_⟩
      · exact advance_joinLocks hadvance hm
      · rwa [hsame]
    · rwa [(closeStep_same hstep).2.2.1]
  intro j d m hj hm
  rcases getElem?_set_of_some hi hj with ⟨rfl,rfl⟩ | ⟨_,hold⟩
  · rcases work_cases h with ⟨c,c',rfl,hd,hstep⟩ | ⟨p,p',_,hd,_⟩
    · cases hd
      rw [(callStep_same hstep).2]
      rcases callStep_lock hstep with hadvance | ⟨_,hsame,_⟩
      · rcases advance_mutex hadvance hm with hbefore | hnow
        · exact hkept (v.lockOf hi hbefore)
        · exact hnow
      · exact hkept (v.lockOf hi (hsame.symm.trans hm))
    · cases hd
  · exact hkept (v.lockOf hold hm)

theorem alone : mapEntries.Alone sys.threads := by
  intro i j w₁ w₂ hi hj hname h₁ h₂
  cases w₁ with
  | close p => exact absurd rfl h₁
  | call c =>
    cases w₂ with
    | close p => exact absurd rfl h₂
    | call d =>
      obtain ⟨m,hm⟩ := Option.ne_none_iff_exists'.mp h₁
      obtain ⟨k,hk⟩ := Option.ne_none_iff_exists'.mp h₂
      have hlock := v.lockOf hi (mutex_of_holds hm)
      rw [show c.name = d.name from hname,v.lockOf hj (mutex_of_holds hk)] at hlock
      obtain rfl := Option.some.inj hlock
      exact v.exclusive.unique hi hj hm hk

end Locked

theorem Maps.congr (h : n.Maps c) (htopics : n'.topics c.name = n.topics c.name)
    (hsubs : n'.subs c.name = n.subs c.name) : n'.Maps c := by
  unfold Maps at h ⊢
  rwa [htopics,hsubs]

/-- The callers exclude each other and find the maps as they expect them. -/
structure Orderly (sys : System Node Worker) : Prop extends Locked sys where
  maps : mapEntries.Kept sys.shared sys.threads

theorem Orderly.advance {sys : System Node Worker} (v : Orderly sys) {i : ℕ}
    (hi : sys.threads[i]? = some w) (h : sys.shared.work w a = some (n',w')) :
    Orderly ⟨n',sys.threads.set i w'⟩ := by
  have hlocked := v.toLocked.advance hi h
  refine ⟨hlocked,?_⟩
  have hframe : ∀ name, name ≠ mapEntries.name w ∨ ¬ mapEntries.inside w →
      n'.topics name = sys.shared.topics name ∧ n'.subs name = sys.shared.subs name := by
    intro name hother
    rcases work_cases h with ⟨c,c',rfl,_,hstep⟩ | ⟨p,p',_,_,hstep⟩
    · exact callStep_frame hstep (hother.imp_right not_not.mp)
    · obtain ⟨htopics,hsubs,_⟩ := closeStep_same hstep
      exact ⟨congrFun htopics name,congrFun hsubs name⟩
  apply v.maps.advance hi v.alone hlocked.alone
  · rcases work_cases h with ⟨c,c',rfl,rfl,hstep⟩ | ⟨p,p',rfl,rfl,_⟩
    · exact (callStep_same hstep).2
    · rfl
  · intro d _ hother hd
    cases d with
    | close p => trivial
    | call d =>
      obtain ⟨htopics,hsubs⟩ := hframe d.name hother
      exact Maps.congr hd htopics hsubs
  · intro name hother hagree
    obtain ⟨htopics,hsubs⟩ := hframe name hother
    change (n'.topics name).isSome = (n'.subs name).isSome
    rw [htopics,hsubs]
    exact hagree
  · intro hout hin hagree
    rcases work_cases h with ⟨c,c',rfl,rfl,hstep⟩ | ⟨p,p',rfl,rfl,_⟩
    · exact maps_enter hstep (not_not.mp hout) hin hagree
    · exact absurd rfl hin
  · intro hin hmaps
    rcases work_cases h with ⟨c,c',rfl,rfl,hstep⟩ | ⟨p,p',rfl,rfl,_⟩
    · obtain ⟨hnext,hleft⟩ := maps_inside hstep hin hmaps
      exact ⟨fun _ => hnext,fun hout => hleft (not_not.mp hout)⟩
    · exact absurd rfl hin

def due (item : Item) : ClosePoint → String → Prop
  | .visit it keys | .stop it _ _ keys => fun key => it = item ∧ key ∈ keys
  | _ => fun _ => False

/-- A step keeps the account; only a `Close` that visits a key takes it off. -/
theorem account_advance {sys : System Node Worker} (v : Orderly sys) {E E' : ℕ → Prop}
    {D D' : String → Prop} {i : ℕ}
    (hacc : Accounted (sys.shared.books item) (Worker.hand item) sys.threads E D)
    (hi : sys.threads[i]? = some w) (h : sys.shared.work w a = some (n',w'))
    (he : ∀ t, E t → E' t) (hlost : ∀ t, (item,.lost t) ∈ noted sys.shared w a → E' t)
    (hstored : ∀ t, (item,.stored t) ∈ noted sys.shared w a → E' t ∨ ∀ k, D k)
    (hdue : ∀ k, D k → (∃ keys, w = .close (.visit item (k :: keys))) ∨ D' k) :
    Accounted (n'.books item) (Worker.hand item) (sys.threads.set i w') E' D' := by
  have hmoved : ∀ {s'}, Move (sys.shared.books item) (w.hand item) s' (w'.hand item)
      (notesOf item (noted sys.shared w a)) →
      Accounted s' (Worker.hand item) (sys.threads.set i w') E' D :=
    fun hmove => hacc.move hi hmove he (fun t ht => hlost t (mem_notesOf.mp ht))
      fun t ht => hstored t (mem_notesOf.mp ht)
  rcases work_cases h with ⟨c,c',rfl,rfl,hstep⟩ | ⟨p,p',rfl,rfl,hstep⟩
  · have hmove := callStep_moves item hstep fun hin => v.maps.rely hi hin
    refine (hmoved hmove).mono (fun _ => id) fun k hk _ => ?_
    rcases hdue k hk with ⟨keys,hclose⟩ | hstill
    · cases hclose
    · exact hstill
  · rcases closeStep_moves item hstep with ⟨key,keys,rfl,rfl,hfound⟩ | ⟨hvisit,hmove⟩
    · refine (hacc.look hi rfl hfound fun k hk => ?_).mono he fun _ hk _ => hk
      rcases hdue k hk with ⟨keys',hclose⟩ | hstill
      · cases hclose
        exact .inl rfl
      · exact .inr hstill
    · refine (hmoved hmove).mono (fun _ => id) fun k hk _ => ?_
      rcases hdue k hk with ⟨keys,hclose⟩ | hstill
      · exact absurd (Worker.close.inj hclose) (hvisit k keys)
      · exact hstill

/-- What a run needs: calls start at their beginning, and a range visits at least the keys that are
in its map when it starts. -/
def Ranges (sys : System Node Worker) : Event Worker Answer → Prop
  | .spawn w => Fresh w
  | .advance i a => ∀ item, sys.threads[i]? = some (.close (.range item)) →
    ∀ key, ((sys.shared.books item).table key).isSome → key ∈ a.keys

theorem noted_of_blocked (h : n.work w a = none) : noted n w a = [] := by
  cases w with
  | call c =>
    have hstep : n.callStep c a.fault = none := Option.map_eq_none_iff.mp h
    revert hstep
    unfold callStep noted
    split
    · intro hstep
      cases hstep
    · fun_cases advance n c a.fault <;> intro hstep <;> cases hstep <;> simp_all
  | close p =>
    have hstep : n.closeStep p a = none := Option.map_eq_none_iff.mp h
    revert hstep
    fun_cases closeStep n p a <;> intro hstep <;> cases hstep
    rfl

/-- Every handle and subscription obtained is closed, in a hand, lost, or in its map. -/
def Balanced (seen : List (Item × Note)) (sys : System Node Worker) : Prop :=
  Orderly sys ∧ ∀ item, Accounted (sys.shared.books item) (Worker.hand item) sys.threads
    (fun t => (item,.lost t) ∈ seen) fun _ => True

theorem orderly_step {sys : System Node Worker} (v : Orderly sys) {e : Event Worker Answer}
    (he : Ranges sys e) : Orderly (step work sys e) := by
  rcases step_cases work sys e with hsame | ⟨w,rfl,hspawn⟩ | ⟨i,a,w,n',w',rfl,hi,h,hadvance⟩
  · rwa [hsame]
  · rw [hspawn]
    exact ⟨v.toLocked.spawn he,v.maps.spawn (not_not.mpr (Fresh.outside he))⟩
  · rw [hadvance]
    exact v.advance hi h

theorem Balanced.step {seen : List (Item × Note)} {sys : System Node Worker} (v : Balanced seen sys)
    {e : Event Worker Answer} (he : Ranges sys e) :
    Balanced (seen ++ observed noted sys e) (step work sys e) := by
  refine ⟨orderly_step v.1 he,fun item => ?_⟩
  have hacc := v.2 item
  rcases observed_cases noted_of_blocked sys e with
    ⟨hsame,hseen⟩ | ⟨w,rfl,hspawn,hseen⟩ | ⟨i,a,w,n',w',rfl,hi,h,hadvance,hseen⟩
  · rwa [hsame,hseen,List.append_nil]
  · rw [hspawn,hseen,List.append_nil]
    exact hacc.spawn w
  · rw [hadvance,hseen]
    exact account_advance v.1 hacc hi h (fun t => List.mem_append_left _)
      (fun t => List.mem_append_right _) (fun t _ => .inr fun _ => trivial)
      fun k hk => .inr trivial

theorem balanced_new (enabled : Bool) : Balanced [] ⟨new enabled,[]⟩ := by
  refine ⟨⟨⟨⟨by simp,by simp⟩,by simp⟩,⟨by simp,fun _ => rfl⟩⟩,fun item t ht => ?_⟩
  cases item <;> exact absurd ht (Nat.not_lt_zero t)

def begun (item : Item) : ClosePoint → Bool
  | .cancel | .range .subscription => false
  | .range .handle | .visit .subscription _ | .stop .subscription _ _ _ => item = .subscription
  | _ => true

theorem begun_closeStep (h : n.closeStep p a = some (n',p')) (hp : begun item p = true) :
    begun item p' = true := by
  revert h
  fun_cases closeStep n p a <;> intro h <;> cases h <;> simp_all [begun]
  all_goals cases ‹Item› <;> simp_all

theorem due_closeStep (h : n.closeStep p a = some (n',p')) (key : String)
    (hdue : due item p key) : (∃ keys, p = .visit item (key :: keys)) ∨ due item p' key := by
  revert h
  fun_cases closeStep n p a <;> intro h <;> cases h <;> simp_all [due]
  all_goals tauto

/-- While a call of `Close` ranges and after that, all that was obtained is ended, in a hand, lost,
stored since the range started, or under a key that the range has still to visit. -/
def Sweeping (item : Item) (i : ℕ) (lost seen : List (Item × Note)) (sys : System Node Worker) :
    Prop :=
  Orderly sys ∧ ∃ p, sys.threads[i]? = some (.close p) ∧ begun item p = true ∧
    Accounted (sys.shared.books item) (Worker.hand item) sys.threads
      (fun t => (item,.lost t) ∈ lost ++ seen ∨ (item,.stored t) ∈ seen) (due item p)

theorem Sweeping.step {i : ℕ} {lost seen : List (Item × Note)} {sys : System Node Worker}
    (v : Sweeping item i lost seen sys) {e : Event Worker Answer} (he : Ranges sys e) :
    Sweeping item i lost (seen ++ observed noted sys e) (step work sys e) := by
  refine ⟨orderly_step v.1 he,?_⟩
  obtain ⟨horderly,p,hp,hbegun,hacc⟩ := v
  rcases observed_cases noted_of_blocked sys e with
    ⟨hsame,hseen⟩ | ⟨w,rfl,hspawn,hseen⟩ | ⟨j,a,w,n',w',rfl,hj,h,hadvance,hseen⟩
  · rw [hsame,hseen,List.append_nil]
    exact ⟨p,hp,hbegun,hacc⟩
  · rw [hspawn,hseen,List.append_nil]
    obtain ⟨hlt,_⟩ := List.getElem?_eq_some_iff.mp hp
    exact ⟨p,(List.getElem?_append_left hlt).trans hp,hbegun,hacc.spawn w⟩
  · rw [hadvance,hseen,← List.append_assoc]
    have hexcused : ∀ t, ((item,.lost t) ∈ lost ++ seen ∨ (item,.stored t) ∈ seen) →
        (item,.lost t) ∈ lost ++ seen ++ noted sys.shared w a ∨
          (item,.stored t) ∈ seen ++ noted sys.shared w a :=
      fun t => Or.imp (List.mem_append_left _) (List.mem_append_left _)
    have hlost : ∀ t, (item,.lost t) ∈ noted sys.shared w a →
        (item,.lost t) ∈ lost ++ seen ++ noted sys.shared w a ∨
          (item,.stored t) ∈ seen ++ noted sys.shared w a :=
      fun t ht => .inl (List.mem_append_right _ ht)
    have hstored : ∀ t, (item,.stored t) ∈ noted sys.shared w a →
        ((item,.lost t) ∈ lost ++ seen ++ noted sys.shared w a ∨
          (item,.stored t) ∈ seen ++ noted sys.shared w a) ∨ ∀ k, due item p k :=
      fun t ht => .inl (.inr (List.mem_append_right _ ht))
    by_cases hji : j = i
    · subst hji
      obtain rfl := Option.some.inj (hj.symm.trans hp)
      rcases work_cases h with ⟨_,_,hcall,_⟩ | ⟨q,p',hq,rfl,hstep⟩
      · cases hcall
      · cases hq
        obtain ⟨hlt,_⟩ := List.getElem?_eq_some_iff.mp hp
        refine ⟨p',List.getElem?_set_self hlt,begun_closeStep hstep hbegun,?_⟩
        apply account_advance horderly hacc hj h hexcused hlost hstored
        intro key hkey
        exact (due_closeStep hstep key hkey).imp_left fun ⟨keys,hvisit⟩ => ⟨keys,hvisit ▸ rfl⟩
    · refine ⟨p,(List.getElem?_set_ne hji).trans hp,hbegun,?_⟩
      exact account_advance horderly hacc hj h hexcused hlost hstored fun key hkey => .inr hkey

theorem sweeping_of_balanced {seen : List (Item × Note)} {sys : System Node Worker}
    (v : Balanced seen sys) {i : ℕ} (hi : sys.threads[i]? = some (.close (.range item)))
    (ha : Ranges sys (.advance i a)) :
    Sweeping item i seen (observed noted sys (.advance i a)) (step work sys (.advance i a)) := by
  have hkept : Balanced (seen ++ observed noted sys (.advance i a))
      (step work sys (.advance i a)) := v.step ha
  have hstep : step work sys (.advance i a) =
      ⟨sys.shared,sys.threads.set i (.close (.visit item a.keys))⟩ := by
    simp only [step,hi]
    rfl
  obtain ⟨hlt,_⟩ := List.getElem?_eq_some_iff.mp hi
  refine ⟨hkept.1,.visit item a.keys,?_,?_,?_⟩
  · rw [hstep]
    exact List.getElem?_set_self hlt
  · cases item <;> rfl
  · refine (hkept.2 item).mono (fun t ht => .inl ht) fun key _ hsome => ⟨rfl,?_⟩
    rw [hstep] at hsome
    exact ha item hi key hsome

/-- However many joins, leaves and other calls of `Close` run beside a call of `Close`, and
whatever pubsub answers: when it has returned, every handle ever obtained is closed and every
subscription cancelled, but for those that somebody still has in hand, those a failed pubsub call
was about, and those stored after its range had started. -/
theorem close_leaves (enabled : Bool) (item : Item) {before since : List (Event Worker Answer)}
    {i : ℕ} {a : Answer} {err : Option String}
    (hes : EachStep work Ranges ⟨new enabled,[]⟩ (before ++ .advance i a :: since))
    (hrange : (run work ⟨new enabled,[]⟩ before).threads[i]? = some (.close (.range item)))
    (hreturned : (run work ⟨new enabled,[]⟩ (before ++ .advance i a :: since)).threads[i]? =
      some (.close (.returned err))) :
    let whole := before ++ .advance i a :: since
    let last := run work ⟨new enabled,[]⟩ whole
    ∀ t < (last.shared.books item).made, t ∈ (last.shared.books item).ended ∨
      (∃ w ∈ last.threads, w.hand item = some t) ∨
      (item,.lost t) ∈ trace work noted ⟨new enabled,[]⟩ whole ∨
      (item,.stored t) ∈
        trace work noted (run work ⟨new enabled,[]⟩ before) (.advance i a :: since) := by
  intro whole last t ht
  obtain ⟨hbefore,hfirst,hsince⟩ := eachStep_append.mp hes
  have hbalanced : Balanced ([] ++ trace work noted ⟨new enabled,[]⟩ before)
      (run work ⟨new enabled,[]⟩ before) :=
    invariant_trace_of_eachStep (fun _ _ _ v he => v.step he) (balanced_new enabled) hbefore
  have hsweeping : Sweeping item i ([] ++ trace work noted ⟨new enabled,[]⟩ before)
      (trace work noted (run work ⟨new enabled,[]⟩ before) (.advance i a :: since))
      (run work (step work (run work ⟨new enabled,[]⟩ before) (.advance i a)) since) :=
    invariant_trace_of_eachStep (fun _ _ _ v he => v.step he)
      (sweeping_of_balanced hbalanced hrange hfirst) hsince
  have hlast : run work (step work (run work ⟨new enabled,[]⟩ before) (.advance i a)) since =
      last := by
    simp only [last,whole,run,List.foldl_append,List.foldl_cons]
  rw [List.nil_append,hlast] at hsweeping
  obtain ⟨_,p,hp,_,hacc⟩ := hsweeping
  obtain rfl : p = .returned err := Worker.close.inj (Option.some.inj (hp.symm.trans hreturned))
  rw [trace_append]
  cases hacc t ht with
  | ended hended => exact .inl hended
  | held hw hhand => exact .inr (.inl ⟨_,hw,hhand⟩)
  | excused hexcused => exact .inr (.inr hexcused)
  | due hkey _ => exact hkey.elim

def joining : List (Event Worker Answer) :=
  .spawn (.call (call .joinTopic "t")) :: List.replicate 6 (.advance 0 ⟨none,[]⟩) ++
    .spawn (.close .cancel) :: List.replicate 3 (.advance 1 ⟨none,[]⟩)

def storing : List (Event Worker Answer) :=
  List.replicate 3 (.advance 1 ⟨none,[]⟩) ++ List.replicate 3 (.advance 0 ⟨none,[]⟩)

theorem close_leaves_joining :
    let last := run work ⟨new true,[]⟩ (joining ++ .advance 1 ⟨none,[]⟩ :: storing)
    last.threads = [.call ⟨.joinTopic,"t",.returned none⟩,.close (.returned none)] ∧
      (last.shared.books .handle).made = 1 ∧ (last.shared.books .handle).ended = [] ∧
      (.handle,.stored 0) ∈ trace work noted (run work ⟨new true,[]⟩ joining)
        (.advance 1 ⟨none,[]⟩ :: storing) := by
  intro last
  have hes : EachStep work Ranges ⟨new true,[]⟩ (joining ++ .advance 1 ⟨none,[]⟩ :: storing) := by
    simp [joining,storing,EachStep,Ranges,Fresh,step,work,callStep,closeStep,advance,call,new,
      books,TopicOp.enter]
    exact ⟨.joinTopic,"t",rfl⟩
  have hthreads : last.threads =
      [.call ⟨.joinTopic,"t",.returned none⟩,.close (.returned none)] := by decide
  have hmade : (last.shared.books .handle).made = 1 := by decide
  have hended : (last.shared.books .handle).ended = [] := by decide
  refine ⟨hthreads,hmade,hended,?_⟩
  have hreturned : last.threads[1]? = some (.close (.returned none)) := by rw [hthreads]; rfl
  have hleaves := close_leaves true .handle hes (by decide) hreturned 0 (by rw [hmade]; decide)
  rcases hleaves with hmem | ⟨w,hw,hhand⟩ | hlost | hstored
  · cases hended ▸ hmem
  · change w ∈ last.threads at hw
    rw [hthreads] at hw
    simp only [List.mem_cons,List.not_mem_nil,or_false] at hw
    rcases hw with rfl | rfl <;> cases hhand
  · revert hlost
    decide
  · exact hstored

end P2PForge.Node
