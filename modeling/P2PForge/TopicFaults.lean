import P2PForge.Topics

/-! Topics when pubsub fails.
Calls are made one after the other, and `topic.Subscribe` and `topic.Close` may fail. Both
leave the topic joined in pubsub and are reached when the node has no record of it, so a call
that fails there strands the name: it can be neither joined again nor left. -/
namespace P2PForge

open Interleaving

namespace Node

/-- `JoinTopic` with nothing running beside it; `fault` is the error of `topic.Subscribe`, if it
is called and fails. -/
def joinTopic (n : Node) (name : String) (fault : Option String) : Node × Option TopicErr :=
  if ¬ n.enabled then (n,some .pubsubNotEnabled)
  else if (n.topics name).isSome then (n,none)
  else
    match n.pubsub.joined name with
    | some _ => (n,some (.join name (fault.getD "topic already exists")))
    | none =>
      let topic := n.pubsub.handles
      let n := { n with pubsub := { n.pubsub with
        joined := Function.update n.pubsub.joined name (some topic)
        handles := topic + 1 } }
      match fault with
      | some cause => (n,some (.subscribe name cause))
      | none =>
        let sub := n.pubsub.subscriptions
        ({ n with
          pubsub := { n.pubsub with subscriptions := sub + 1 }
          topics := Function.update n.topics name (some topic)
          subs := Function.update n.subs name (some sub) },none)

def cancelSub (n : Node) (name : String) : Node :=
  match n.subs name with
  | none => n
  | some sub => { n with
      subs := Function.update n.subs name none
      pubsub := { n.pubsub with cancelled := sub :: n.pubsub.cancelled } }

/-- The second half of `LeaveTopic`; `fault` is the error of `topic.Close`. -/
def closeTopic (n : Node) (name : String) (fault : Option String) : Node × Option TopicErr :=
  match n.topics name with
  | none => (n,none)
  | some topic =>
    let n := { n with topics := Function.update n.topics name none }
    match fault with
    | some cause => (n,some (.close name cause))
    | none =>
      ({ n with pubsub := { n.pubsub with
        joined := Function.update n.pubsub.joined name none
        closed := topic :: n.pubsub.closed } },none)

/-- `LeaveTopic` with nothing running beside it. -/
def leaveTopic (n : Node) (name : String) (fault : Option String) : Node × Option TopicErr :=
  (n.cancelSub name).closeTopic name fault

structure Request where
  op : TopicOp
  name : String
  fault : Option String

def attempt (n : Node) (q : Request) : Node × Option TopicErr :=
  match q.op with
  | .joinTopic => n.joinTopic q.name q.fault
  | .leaveTopic => n.leaveTopic q.name q.fault

section Alone

theorem forall_mem_congr {α β : Type} {R : α → β → Prop} {P : α → Prop} {Q : β → Prop}
    {as : List α} {bs : List β} (h : List.Forall₂ R as bs) (hiff : ∀ {a b}, R a b → (P a ↔ Q b)) :
    (∀ a ∈ as, P a) ↔ ∀ b ∈ bs, Q b := by
  induction h with
  | nil => simp
  | cons hab _ ih => rw [List.forall_mem_cons,List.forall_mem_cons,hiff hab,ih]

/-- A call that takes step after step until it has returned, with nothing running beside it. -/
def complete : ℕ → Node → TopicCall → Option String → Option (Node × Option TopicErr)
  | 0,_,_,_ => none
  | k + 1,n,c,fault =>
    match c.point with
    | .returned result => some (n,result)
    | _ => (n.advance c fault).bind fun next => complete k next.1 next.2 fault

structure Free (n : Node) : Prop where
  lt : ∀ {name m}, n.joinLocks name = some m → m < n.mutexes.length
  unlocked : ∀ {m : ℕ}, n.mutexes[m]? ≠ some true

structure Holding (n : Node) (m : ℕ) : Prop where
  lt : ∀ {name m}, n.joinLocks name = some m → m < n.mutexes.length
  locked : n.mutexes[m]? = some true
  unlocked : ∀ {j : ℕ}, j ≠ m → n.mutexes[j]? ≠ some true

structure SameEntries (n n' : Node) : Prop where
  enabled : n'.enabled = n.enabled
  pubsub : n'.pubsub = n.pubsub
  topics : n'.topics = n.topics
  subs : n'.subs = n.subs

variable {n n' : Node} {c c' : TopicCall} {fault : Option String}

theorem complete_step (k : ℕ) (h : n.advance c fault = some (n',c')) :
    complete (k + 1) n c fault = complete k n' c' fault := by
  cases hpoint : c.point <;> simp only [complete,hpoint,h,Option.bind_some]
  simp [advance,hpoint] at h

theorem free_new (enabled : Bool) : (new enabled).Free := by
  constructor <;> simp [new]

theorem Free.lock (h : n.Free) {m : ℕ} (hm : m < n.mutexes.length) (op : TopicOp) (name : String) :
    n.advance ⟨op,name,.lock m⟩ fault =
        some ({ n with mutexes := n.mutexes.set m true },⟨op,name,op.enter m⟩) ∧
      Holding { n with mutexes := n.mutexes.set m true } m := by
  have hfalse : n.mutexes[m]? = some false := by
    obtain ⟨b,hb⟩ : ∃ b, n.mutexes[m]? = some b := ⟨_,List.getElem?_eq_getElem hm⟩
    cases b with
    | false => exact hb
    | true => exact absurd hb h.unlocked
  refine ⟨by simp only [advance,hfalse,if_true],?_,?_,?_⟩
  · intro name' j hj
    rw [List.length_set]
    exact h.lt hj
  · exact List.getElem?_set_self hm
  · intro j hj
    rw [List.getElem?_set_ne hj.symm]
    exact h.unlocked

theorem Free.enter (h : n.Free) (fault : Option String) (k : ℕ) (op : TopicOp) (name : String) :
    ∃ n₁ m, complete (k + 2) n ⟨op,name,.loadLock⟩ fault =
        complete k n₁ ⟨op,name,op.enter m⟩ fault ∧ n₁.Holding m ∧ n.SameEntries n₁ := by
  cases hlock : n.joinLocks name with
  | some m =>
    have hload : n.advance ⟨op,name,.loadLock⟩ fault = some (n,⟨op,name,.lock m⟩) := by
      simp only [advance,hlock]
    obtain ⟨hstep,hholding⟩ := h.lock (h.lt hlock) op name
    exact ⟨_,m,(complete_step (k + 1) hload).trans (complete_step k hstep),hholding,rfl,rfl,rfl,rfl⟩
  | none =>
    -- the first call of this name makes the lock
    let made : Node := { n with
      joinLocks := Function.update n.joinLocks name (some n.mutexes.length)
      mutexes := n.mutexes ++ [false] }
    have hload : n.advance ⟨op,name,.loadLock⟩ fault =
        some (made,⟨op,name,.lock n.mutexes.length⟩) := by
      simp only [advance,hlock,made]
    have hfree : made.Free := by
      constructor
      · intro name' j hj
        by_cases hname : name' = name
        · simp_all [made]
        · have := h.lt ((Function.update_of_ne hname _ _).symm.trans hj)
          simp only [made,List.length_append,List.length_singleton]
          omega
      · intro j hj
        rcases getElem?_concat hj with hold | ⟨_,hnew⟩
        · exact h.unlocked hold
        · cases hnew
    obtain ⟨hstep,hholding⟩ := hfree.lock (m := n.mutexes.length) (by simp [made]) op name
    exact ⟨_,_,(complete_step (k + 1) hload).trans (complete_step k hstep),hholding,rfl,rfl,rfl,rfl⟩

theorem Holding.unlock {m : ℕ} (h : n.Holding m) (k : ℕ) (op : TopicOp) (name : String)
    (result : Option TopicErr) :
    ∃ n', complete (k + 2) n ⟨op,name,.unlock m result⟩ fault = some (n',result) ∧ n'.Free ∧
      n.SameEntries n' := by
  refine ⟨{ n with mutexes := n.mutexes.set m false },?_,⟨?_,?_⟩,rfl,rfl,rfl,rfl⟩
  · rw [complete_step (k + 1) rfl,complete]
  · intro name' j hj
    rw [List.length_set]
    exact h.lt hj
  · intro j hj
    by_cases hjm : j = m
    · subst hjm
      simp [List.getElem?_set] at hj
    · rw [List.getElem?_set_ne (Ne.symm hjm)] at hj
      exact h.unlocked hjm hj

theorem SameEntries.trans {n₁ n₂ : Node} (h : n.SameEntries n₁) (h' : n₁.SameEntries n₂) :
    n.SameEntries n₂ :=
  ⟨h'.enabled.trans h.enabled,h'.pubsub.trans h.pubsub,h'.topics.trans h.topics,
    h'.subs.trans h.subs⟩

theorem SameEntries.attempt (h : n.SameEntries n') (q : Request) :
    (n'.attempt q).2 = (n.attempt q).2 ∧ (n.attempt q).1.SameEntries (n'.attempt q).1 := by
  obtain ⟨enabled,pubsub,topics,subs,_,_⟩ := n
  obtain ⟨enabled',pubsub',topics',subs',_,_⟩ := n'
  obtain ⟨rfl,rfl,rfl,rfl⟩ := h
  obtain ⟨op,name,fault⟩ := q
  cases op with
  | joinTopic =>
    by_cases henabled : enabled' = true
    · by_cases htopic : (topics' name).isSome = true
      · simp only [attempt,Node.joinTopic,henabled,htopic,not_true,if_false,if_true]
        exact ⟨trivial,rfl,rfl,rfl,rfl⟩
      · cases hjoined : pubsub'.joined name <;> cases fault <;>
          simp only [attempt,Node.joinTopic,henabled,htopic,hjoined,not_true,if_false,
            Bool.false_eq_true] <;>
          exact ⟨trivial,rfl,rfl,rfl,rfl⟩
    · simp only [attempt,Node.joinTopic,henabled,Bool.false_eq_true,not_false_eq_true,if_true]
      exact ⟨trivial,rfl,rfl,rfl,rfl⟩
  | leaveTopic =>
    cases hsub : subs' name <;> cases htopic : topics' name <;> cases fault <;>
      simp only [attempt,Node.leaveTopic,cancelSub,closeTopic,hsub,htopic] <;>
      exact ⟨trivial,rfl,rfl,rfl,rfl⟩

theorem Holding.joinTopic {m : ℕ} (h : n.Holding m) (henabled : n.enabled = true)
    (fault : Option String) (k : ℕ) (name : String) :
    ∃ n', complete (k + 7) n ⟨.joinTopic,name,.recheck m⟩ fault =
        some (n',(n.joinTopic name fault).2) ∧ n'.Free ∧
      (n.joinTopic name fault).1.SameEntries n' := by
  unfold Node.joinTopic
  rw [if_neg (by simp [henabled])]
  by_cases htopic : (n.topics name).isSome
  · have hrecheck : n.advance ⟨.joinTopic,name,.recheck m⟩ fault =
        some (n,⟨.joinTopic,name,.unlock m none⟩) := by
      simp only [advance,if_pos htopic]
    rw [if_pos htopic,complete_step (k + 6) hrecheck]
    exact h.unlock (k + 4) _ name none
  · have hrecheck : n.advance ⟨.joinTopic,name,.recheck m⟩ fault =
        some (n,⟨.joinTopic,name,.join m⟩) := by
      simp only [advance,if_neg htopic]
    rw [if_neg htopic,complete_step (k + 6) hrecheck]
    cases hjoined : n.pubsub.joined name with
    | some topic =>
      have hjoin : n.advance ⟨.joinTopic,name,.join m⟩ fault = some (n,⟨.joinTopic,name,.unlock m
          (some (.join name (fault.getD "topic already exists")))⟩) := by
        simp only [advance,hjoined]
      rw [complete_step (k + 5) hjoin]
      exact h.unlock (k + 3) _ name _
    | none =>
      have hjoin : n.advance ⟨.joinTopic,name,.join m⟩ fault =
          some ({ n with pubsub := { n.pubsub with
            joined := Function.update n.pubsub.joined name (some n.pubsub.handles)
            handles := n.pubsub.handles + 1 } },
            ⟨.joinTopic,name,.subscribe m n.pubsub.handles⟩) := by
        simp only [advance,hjoined]
      rw [complete_step (k + 5) hjoin]
      cases fault with
      | some cause =>
        rw [complete_step (k + 4) rfl]
        refine Holding.unlock ?_ (k + 2) _ name _
        exact ⟨h.lt,h.locked,h.unlocked⟩
      | none =>
        rw [complete_step (k + 4) rfl,complete_step (k + 3) rfl,complete_step (k + 2) rfl]
        refine Holding.unlock ?_ k _ name _
        exact ⟨h.lt,h.locked,h.unlocked⟩

theorem Holding.takeTopic {m : ℕ} (h : n.Holding m) (k : ℕ) (name : String) :
    ∃ n', complete (k + 4) n ⟨.leaveTopic,name,.takeTopic m⟩ fault =
        some (n',(n.closeTopic name fault).2) ∧ n'.Free ∧
      (n.closeTopic name fault).1.SameEntries n' := by
  unfold closeTopic
  cases htopic : n.topics name with
  | none =>
    have htake : n.advance ⟨.leaveTopic,name,.takeTopic m⟩ fault =
        some (n,⟨.leaveTopic,name,.unlock m none⟩) := by
      simp only [advance,htopic]
    rw [complete_step (k + 3) htake]
    exact h.unlock (k + 1) _ name none
  | some topic =>
    have htake : n.advance ⟨.leaveTopic,name,.takeTopic m⟩ fault =
        some ({ n with topics := Function.update n.topics name none },
          ⟨.leaveTopic,name,.close m topic⟩) := by
      simp only [advance,htopic]
    rw [complete_step (k + 3) htake]
    cases fault <;> rw [complete_step (k + 2) rfl] <;> refine Holding.unlock ?_ k _ name _ <;>
      exact ⟨h.lt,h.locked,h.unlocked⟩

theorem Holding.leaveTopic {m : ℕ} (h : n.Holding m) (fault : Option String) (k : ℕ)
    (name : String) :
    ∃ n', complete (k + 6) n ⟨.leaveTopic,name,.takeSub m⟩ fault =
        some (n',(n.leaveTopic name fault).2) ∧ n'.Free ∧
      (n.leaveTopic name fault).1.SameEntries n' := by
  unfold Node.leaveTopic cancelSub
  cases hsub : n.subs name with
  | none =>
    have htake : n.advance ⟨.leaveTopic,name,.takeSub m⟩ fault =
        some (n,⟨.leaveTopic,name,.takeTopic m⟩) := by
      simp only [advance,hsub]
    rw [complete_step (k + 5) htake]
    exact h.takeTopic (k + 1) name
  | some sub =>
    have htake : n.advance ⟨.leaveTopic,name,.takeSub m⟩ fault =
        some ({ n with subs := Function.update n.subs name none },
          ⟨.leaveTopic,name,.cancel m sub⟩) := by
      simp only [advance,hsub]
    rw [complete_step (k + 5) htake,complete_step (k + 4) rfl]
    refine Holding.takeTopic ?_ k name
    exact ⟨h.lt,h.locked,h.unlocked⟩

/-- A call on a node on which nothing else runs returns, and does what the call without its locks
does. -/
theorem Free.complete_call (h : n.Free) (q : Request) :
    ∃ n', complete 10 n (call q.op q.name) q.fault = some (n',(n.attempt q).2) ∧ n'.Free ∧
      (n.attempt q).1.SameEntries n' := by
  obtain ⟨op,name,fault⟩ := q
  cases op with
  | joinTopic =>
    by_cases henabled : n.enabled = true
    · by_cases htopic : (n.topics name).isSome = true
      · have hload : n.advance ⟨.joinTopic,name,.loadTopic⟩ fault =
            some (n,⟨.joinTopic,name,.returned none⟩) := by
          simp only [advance,henabled,htopic,not_true,if_false,if_true]
        have hattempt : n.attempt ⟨.joinTopic,name,fault⟩ = (n,none) := by
          simp only [attempt,Node.joinTopic,henabled,htopic,not_true,if_false,if_true]
        rw [hattempt]
        exact ⟨n,complete_step 9 hload,h,rfl,rfl,rfl,rfl⟩
      · have hload : n.advance ⟨.joinTopic,name,.loadTopic⟩ fault =
            some (n,⟨.joinTopic,name,.loadLock⟩) := by
          simp only [advance,henabled,htopic,not_true,if_false,Bool.false_eq_true]
        obtain ⟨n₁,m,henter,hholding,hentries⟩ := h.enter fault 7 .joinTopic name
        obtain ⟨n',hbody,hfree,hsame⟩ :=
          hholding.joinTopic (hentries.enabled.trans henabled) fault 0 name
        obtain ⟨hresult,hattempt⟩ := hentries.attempt ⟨.joinTopic,name,fault⟩
        refine ⟨n',?_,hfree,hattempt.trans hsame⟩
        rw [← hresult]
        exact (complete_step 9 hload).trans (henter.trans hbody)
    · have hload : n.advance ⟨.joinTopic,name,.loadTopic⟩ fault =
          some (n,⟨.joinTopic,name,.returned (some .pubsubNotEnabled)⟩) := by
        simp only [advance,henabled,Bool.false_eq_true,not_false_eq_true,if_true]
      have hattempt : n.attempt ⟨.joinTopic,name,fault⟩ = (n,some .pubsubNotEnabled) := by
        simp only [attempt,Node.joinTopic,henabled,Bool.false_eq_true,not_false_eq_true,if_true]
      rw [hattempt]
      exact ⟨n,complete_step 9 hload,h,rfl,rfl,rfl,rfl⟩
  | leaveTopic =>
    obtain ⟨n₁,m,henter,hholding,hentries⟩ := h.enter fault 8 .leaveTopic name
    obtain ⟨n',hbody,hfree,hsame⟩ := hholding.leaveTopic fault 2 name
    obtain ⟨hresult,hattempt⟩ := hentries.attempt ⟨.leaveTopic,name,fault⟩
    refine ⟨n',?_,hfree,hattempt.trans hsame⟩
    rw [← hresult]
    exact henter.trans hbody

/-- The calls one after the other, each to its return; nothing if one of them does not return. -/
def completeAll : Node → List Request → Option (List (Node × Option TopicErr))
  | _,[] => some []
  | n,q :: qs =>
    (complete 10 n (call q.op q.name) q.fault).bind fun out =>
      (completeAll out.1 qs).map fun outs => out :: outs

end Alone

def history (n : Node) : List Request → List (Node × Option TopicErr)
  | [] => []
  | q :: qs => n.attempt q :: (n.attempt q).1.history qs

theorem Free.completeAll_history {n₀ n : Node} (h : n.Free) (hentries : n₀.SameEntries n)
    (qs : List Request) :
    ∃ outs, completeAll n qs = some outs ∧
      List.Forall₂ (fun x out => out.2 = x.2 ∧ x.1.SameEntries out.1) (n₀.history qs) outs := by
  induction qs generalizing n₀ n with
  | nil => exact ⟨[],rfl,.nil⟩
  | cons q qs ih =>
    obtain ⟨n',hcomplete,hfree,hsame⟩ := h.complete_call q
    obtain ⟨hresult,hattempt⟩ := hentries.attempt q
    obtain ⟨outs,houts,hall⟩ := ih hfree (hattempt.trans hsame)
    refine ⟨(n',(n.attempt q).2) :: outs,?_,.cons ⟨hresult,hattempt.trans hsame⟩ hall⟩
    simp only [completeAll,hcomplete,houts,Option.bind_some,Option.map_some]

theorem completeAll_new (enabled : Bool) (qs : List Request) :
    ∃ outs, completeAll (new enabled) qs = some outs ∧
      List.Forall₂ (fun x out => out.2 = x.2 ∧ x.1.SameEntries out.1)
        ((new enabled).history qs) outs :=
  (free_new enabled).completeAll_history ⟨rfl,rfl,rfl,rfl⟩ qs

/-- A topic is joined in pubsub exactly if the node has it on record. -/
def Held (n : Node) : Prop := ∀ name, (n.pubsub.joined name).isSome = (n.topics name).isSome

theorem held_new (enabled : Bool) : (new enabled).Held := fun _ => rfl

/-- The call comes to `topic.Subscribe` or to `topic.Close`. -/
def Reaches (n : Node) (q : Request) : Prop :=
  match q.op with
  | .joinTopic => n.enabled = true ∧ n.topics q.name = none ∧ n.pubsub.joined q.name = none
  | .leaveTopic => (n.topics q.name).isSome = true

def Faultless (n : Node) : List Request → Prop
  | [] => True
  | q :: qs => (n.Reaches q → q.fault = none) ∧ (n.attempt q).1.Faultless qs

section Strand

variable {n : Node}

theorem SameEntries.held {n' : Node} (h : n.SameEntries n') : n'.Held ↔ n.Held := by
  simp only [Held,h.pubsub,h.topics]

/-- A call keeps what pubsub has joined and what the node has on record together, unless the
pubsub operation it comes to fails. -/
theorem Held.joinTopic (h : n.Held) (name : String) (fault : Option String) :
    (n.joinTopic name fault).1.Held ↔ (n.Reaches ⟨.joinTopic,name,fault⟩ → fault = none) := by
  fun_cases Node.joinTopic n name fault with
  | case1 =>
    rename_i hdisabled
    exact iff_of_true h fun hreaches => absurd hreaches.1 hdisabled
  | case2 =>
    rename_i hrecord
    refine iff_of_true h fun hreaches => ?_
    have hnone : n.topics name = none := hreaches.2.1
    rw [hnone] at hrecord
    cases hrecord
  | case3 _ hrecord topic hjoined =>
    have hboth := h name
    simp_all
  | case4 henabled hrecord hjoined topic opened cause =>
    refine iff_of_false (fun hheld => ?_) fun hnone => ?_
    · have hboth := hheld name
      simp_all [opened]
    · cases hnone ⟨not_not.mp henabled,by simpa using hrecord,hjoined⟩
  | case5 _ hrecord hjoined topic opened sub =>
    refine iff_of_true (fun name' => ?_) fun _ => rfl
    by_cases hname : name' = name
    · subst hname
      simp [opened]
    · simpa [opened,hname] using h name'

theorem Held.closeTopic (h : n.Held) (name : String) (fault : Option String) :
    (n.closeTopic name fault).1.Held ↔ ((n.topics name).isSome = true → fault = none) := by
  fun_cases Node.closeTopic n name fault with
  | case1 =>
    rename_i htopic
    exact iff_of_true h (by simp [htopic])
  | case2 topic htopic taken cause =>
    refine iff_of_false (fun hheld => ?_) (by simp [htopic])
    have hboth := hheld name
    have hbefore := h name
    simp_all [taken]
  | case3 topic htopic taken =>
    refine iff_of_true (fun name' => ?_) fun _ => rfl
    by_cases hname : name' = name
    · subst hname
      simp [taken]
    · simpa [taken,hname] using h name'

@[simp] theorem topics_cancelSub (n : Node) (name : String) :
    (n.cancelSub name).topics = n.topics := by
  unfold cancelSub
  split <;> rfl

@[simp] theorem joined_cancelSub (n : Node) (name : String) :
    (n.cancelSub name).pubsub.joined = n.pubsub.joined := by
  unfold cancelSub
  split <;> rfl

theorem Held.cancelSub (h : n.Held) (name : String) : (n.cancelSub name).Held := by
  intro name'
  rw [topics_cancelSub,joined_cancelSub]
  exact h name'

theorem Held.attempt (h : n.Held) (q : Request) :
    (n.attempt q).1.Held ↔ (n.Reaches q → q.fault = none) := by
  obtain ⟨op,name,fault⟩ := q
  cases op with
  | joinTopic => exact h.joinTopic name fault
  | leaveTopic =>
    have hclose := (h.cancelSub name).closeTopic name fault
    rwa [topics_cancelSub] at hclose

theorem Held.not_refused (h : n.Held) (q : Request) (name cause : String) :
    (n.attempt q).2 ≠ some (.join name cause) := by
  obtain ⟨op,name',fault⟩ := q
  cases op with
  | joinTopic =>
    simp only [Node.attempt]
    fun_cases Node.joinTopic n name' fault with
    | case3 _ hrecord topic hjoined =>
      have hboth := h name'
      simp_all
    | _ => simp
  | leaveTopic =>
    simp only [Node.attempt,Node.leaveTopic]
    fun_cases Node.closeTopic (n.cancelSub name') name' fault <;> simp

theorem Held.leaves (h : n.Held) (name : String) :
    (n.leaveTopic name none).1.pubsub.joined name = none := by
  have hboth := h name
  cases htopic : n.topics name <;> simp_all [Node.leaveTopic,Node.closeTopic]

def Stranded (n : Node) (name : String) : Prop :=
  (n.pubsub.joined name).isSome = true ∧ n.topics name = none

theorem Stranded.closeTopic {name : String} (h : n.Stranded name) (name' : String)
    (fault : Option String) :
    (n.closeTopic name' fault).1.Stranded name ∧
      (name' = name → (n.closeTopic name' fault).2 = none) := by
  obtain ⟨hjoined,htopic⟩ := h
  by_cases hname : name' = name
  · subst hname
    simp only [Node.closeTopic,htopic]
    exact ⟨⟨hjoined,htopic⟩,fun _ => trivial⟩
  · refine ⟨?_,fun heq => absurd heq hname⟩
    fun_cases Node.closeTopic n name' fault with
    | case1 => exact ⟨hjoined,htopic⟩
    | case2 topic _ taken cause => simp [Stranded,taken,Ne.symm hname,hjoined,htopic]
    | case3 topic _ taken => simp [Stranded,taken,Ne.symm hname,hjoined,htopic]

/-- A stranded topic stays so: a call that joins it returns an error, and one that leaves it
returns nil and has done nothing. -/
theorem Stranded.attempt {name : String} (h : n.Stranded name) (q : Request) :
    (n.attempt q).1.Stranded name ∧
      (q.name = name → ((n.attempt q).2 = none ↔ q.op = .leaveTopic)) := by
  obtain ⟨op,name',fault⟩ := q
  cases op with
  | joinTopic =>
    obtain ⟨hjoined,htopic⟩ := h
    simp only [Node.attempt]
    fun_cases Node.joinTopic n name' fault with
    | case1 => exact ⟨⟨hjoined,htopic⟩,by simp⟩
    | case2 hrecord =>
      refine ⟨⟨hjoined,htopic⟩,?_⟩
      rintro rfl
      simp_all
    | case3 => exact ⟨⟨hjoined,htopic⟩,by simp⟩
    | case4 _ _ hnone topic opened cause =>
      have hname : name ≠ name' := by
        rintro rfl
        simp [hnone] at hjoined
      simp [Stranded,opened,hname,hjoined,htopic]
    | case5 _ _ hnone topic opened sub =>
      have hname : name ≠ name' := by
        rintro rfl
        simp [hnone] at hjoined
      simp [Stranded,opened,hname,hname.symm,hjoined,htopic]
  | leaveTopic =>
    have hstranded : (n.cancelSub name').Stranded name := by
      rw [Stranded,topics_cancelSub,joined_cancelSub]
      exact h
    simp only [Node.attempt,Node.leaveTopic,iff_true]
    exact hstranded.closeTopic name' fault

end Strand

theorem Stranded.history {n : Node} {name : String} (h : n.Stranded name) (qs : List Request) :
    List.Forall₂ (fun q x => x.1.Stranded name ∧
      (q.name = name → (x.2 = none ↔ q.op = .leaveTopic))) qs (n.history qs) := by
  induction qs generalizing n with
  | nil => exact .nil
  | cons q qs ih => exact .cons (h.attempt q) (ih (h.attempt q).1)

theorem Held.history_iff {n : Node} (h : n.Held) (qs : List Request) :
    (∀ x ∈ n.history qs, x.1.Held) ↔ n.Faultless qs := by
  induction qs generalizing n with
  | nil => simp [Node.history,Faultless]
  | cons q qs ih =>
    rw [Node.history,List.forall_mem_cons,Faultless,← h.attempt q]
    exact and_congr_right fun hnext => ih hnext

theorem Held.history_not_refused {n : Node} (h : n.Held) (qs : List Request)
    (hall : ∀ x ∈ n.history qs, x.1.Held) :
    ∀ x ∈ n.history qs, ∀ name cause, x.2 ≠ some (.join name cause) := by
  induction qs generalizing n with
  | nil => simp [Node.history]
  | cons q qs ih =>
    rw [Node.history,List.forall_mem_cons] at hall ⊢
    exact ⟨h.not_refused q,ih hall.1 hall.2⟩

/-- What becomes of topics when pubsub fails. Calls that are made one after the other, step by step
and with their locks, all return what `history` says. After every one of them pubsub has joined
what the node has on record, exactly if no call comes to a `topic.Subscribe` or a `topic.Close`
that fails; and as long as this is so pubsub refuses no join, and what is open can be left. -/
theorem history_held_iff (enabled : Bool) (qs : List Request) :
    ∃ outs, completeAll (new enabled) qs = some outs ∧
      List.Forall₂ (fun x out => out.2 = x.2 ∧ x.1.SameEntries out.1)
        ((new enabled).history qs) outs ∧
      ((∀ out ∈ outs, out.1.Held) ↔ (new enabled).Faultless qs) ∧
      ((new enabled).Faultless qs →
        (∀ out ∈ outs, ∀ name cause, out.2 ≠ some (.join name cause)) ∧
        ∀ out ∈ outs, ∀ name, (out.1.leaveTopic name none).1.pubsub.joined name = none) := by
  obtain ⟨outs,houts,hsame⟩ := completeAll_new enabled qs
  have hfirst := (held_new enabled).history_iff qs
  have hheld : (∀ out ∈ outs, out.1.Held) ↔ (new enabled).Faultless qs := by
    rw [← hfirst,forall_mem_congr hsame fun h => h.2.held.symm]
  refine ⟨outs,houts,hsame,hheld,fun hfaultless => ⟨?_,fun out hout => ?_⟩⟩
  · have hjoins := (held_new enabled).history_not_refused qs (hfirst.mpr hfaultless)
    rwa [← forall_mem_congr hsame fun h => by rw [h.1]]
  · exact (hheld.mpr hfaultless out hout).leaves

/-- A subscription that fails, and the calls after it: the topic is open in pubsub, not on record,
cannot be joined again, and `LeaveTopic` returns nil without closing it. The same after a
topic that did not close. -/
theorem history_stranded :
    let failed : List Request := [⟨.joinTopic,"news",some "no router"⟩,⟨.joinTopic,"news",none⟩,
      ⟨.leaveTopic,"news",none⟩]
    let unclosed : List Request := [⟨.joinTopic,"news",none⟩,⟨.leaveTopic,"news",some "has peers"⟩,
      ⟨.joinTopic,"news",none⟩]
    ((new true).history failed).map Prod.snd = [some (.subscribe "news" "no router"),
        some (.join "news" "topic already exists"),none] ∧
      (∀ x ∈ (new true).history failed, ¬ x.1.Held) ∧
      ((new true).history unclosed).map Prod.snd = [none,some (.close "news" "has peers"),
        some (.join "news" "topic already exists")] ∧
      ¬ ∀ x ∈ (new true).history unclosed, x.1.Held := by
  intro failed unclosed
  refine ⟨rfl,?_,rfl,?_⟩
  · have hopen : ∀ x ∈ (new true).history failed,
        (x.1.pubsub.joined "news").isSome = true ∧ (x.1.topics "news").isSome = false := by decide
    intro x hx hheld
    have hboth := hheld "news"
    rw [(hopen x hx).1,(hopen x hx).2] at hboth
    cases hboth
  · rw [(held_new true).history_iff]
    rintro ⟨_,hleave,_⟩
    cases hleave rfl

end Node
end P2PForge
