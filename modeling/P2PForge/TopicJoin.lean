import P2PForge.Topics

/-! When joining makes a topic usable.
`JoinTopic` publishes the topic handle before the subscription, and its lock-free first look
only asks for the handle. A second joiner that looks between the two stores returns nil while
`Subscribe` still finds nothing; no other interleaving of joins does this. -/
namespace P2PForge.Node

open Interleaving

def JoinEvent : Event TopicCall (Option String) → Prop
  | .spawn c => ∃ name, c = call .joinTopic name
  | .advance _ fault => fault = none

theorem JoinEvent.topicEvent {e : Event TopicCall (Option String)} (he : JoinEvent e) :
    TopicEvent e := by
  cases e with
  | spawn c =>
    obtain ⟨name,rfl⟩ := he
    exact ⟨_,name,rfl⟩
  | advance i fault => exact he

/-- Once a `JoinTopic` of the name has returned nil, `Subscribe` returns a subscription and
`Publish` finds the topic. -/
def Usable (name : String) (sys : System Node TopicCall) : Prop :=
  (∃ c ∈ sys.threads, c.op = .joinTopic ∧ c.name = name ∧ c.point = .returned none) →
    (sys.shared.subscribe name).isSome ∧ ∃ topic, sys.shared.publish name = .ok topic

/-- A `JoinTopic` of the name takes its lock-free first look while another one stands between
its two stores. -/
def LooksEarly (name : String) (sys : System Node TopicCall)
    (e : Event TopicCall (Option String)) : Prop :=
  (∃ i fault c, e = .advance i fault ∧ sys.threads[i]? = some c ∧ c.name = name ∧
    c.point = .loadTopic) ∧
    ∃ d ∈ sys.threads, d.name = name ∧ ∃ m sub, d.point = .storeSub m sub

/-- The invariant of such runs: only joins, and none gets past its first look unless pubsub is
enabled. -/
structure Joining (sys : System Node TopicCall) : Prop extends Coherent sys where
  op : ∀ c ∈ sys.threads, c.op = .joinTopic
  enabled : ∀ c ∈ sys.threads, c.point = .loadTopic ∨ (∃ result, c.point = .returned result) ∨
    sys.shared.enabled

theorem joining_new (enabled : Bool) : Joining ⟨new enabled,[]⟩ :=
  ⟨coherent_new enabled,by simp,by simp⟩

variable {n n' : Node} {c c' : TopicCall} {fault : Option String}

theorem advance_enabled (h : n.advance c fault = some (n',c'))
    (hc : c.point = .loadTopic ∨ (∃ result, c.point = .returned result) ∨ n.enabled) :
    c'.point = .loadTopic ∨ (∃ result, c'.point = .returned result) ∨ n'.enabled := by
  rw [(advance_same h).2.2]
  revert h
  fun_cases advance n c fault <;> intro h <;> cases h <;> simp_all

theorem advance_join_mono (h : n.advance c fault = some (n',c')) (hop : c.op = .joinTopic)
    (hphase : n.Phase c) (name : String) :
    ((n.topics name).isSome → (n'.topics name).isSome) ∧
      ((n.subs name).isSome → (n'.subs name).isSome) := by
  by_cases hname : name = c.name
  · subst hname
    revert h
    fun_cases advance n c fault <;> intro h <;> cases h <;> simp_all [Phase]
  · obtain ⟨htopics,hsubs,_⟩ := advance_frame h hname
    rw [htopics,hsubs]
    exact ⟨id,id⟩

theorem publish_ok_iff (name : String) :
    (∃ topic, n.publish name = .ok topic) ↔ (n.topics name).isSome := by
  unfold publish
  cases n.topics name <;> simp

namespace Joining

variable {sys : System Node TopicCall} (v : Joining sys)
include v

theorem step {e : Event TopicCall (Option String)} (he : JoinEvent e) :
    Joining (step Node.advance sys e) := by
  have hcall : ∀ c, e = .spawn c → c.op = .joinTopic ∧ c.point = .loadTopic := by
    rintro c rfl
    obtain ⟨name,rfl⟩ := he
    exact ⟨rfl,rfl⟩
  refine ⟨v.toCoherent.step he.topicEvent,?_,?_⟩
  · refine forall_threads_step (P := fun _ c => c.op = .joinTopic) v.op
      (fun c hc => (hcall c hc).1) ?_ fun _ _ hop => hop
    exact fun _ hi h => (advance_same h).1.trans (v.op _ (List.mem_of_getElem? hi))
  · refine forall_threads_step (P := fun (n : Node) c => c.point = .loadTopic ∨
      (∃ result, c.point = .returned result) ∨ n.enabled) v.enabled
      (fun c hc => .inl (hcall c hc).2) ?_ ?_
    · exact fun _ hi h => advance_enabled h (v.enabled _ (List.mem_of_getElem? hi))
    · intro c fault n' c' h d hd
      rwa [(advance_same h).2.2]

theorem subs_isSome {name : String} (htopic : (sys.shared.topics name).isSome)
    (hno : ¬ ∃ d ∈ sys.threads, d.name = name ∧ ∃ m sub, d.point = .storeSub m sub) :
    (sys.shared.subs name).isSome := by
  by_cases hfree : ∀ {i : ℕ} {c}, sys.threads[i]? = some c → c.name = name →
      c.point.holds = none
  · rcases v.settled hfree with hknown | hknown <;> simp_all [known]
  · push Not at hfree
    obtain ⟨i,c,hi,rfl,hholds⟩ := hfree
    have hmem := List.mem_of_getElem? hi
    have hphase := v.phase hi
    have hop := v.op c hmem
    have hstore : ∀ m sub, c.point ≠ .storeSub m sub :=
      fun m sub hpoint => hno ⟨c,hmem,rfl,m,sub,hpoint⟩
    cases hpoint : c.point <;>
      simp_all [Phase,Settled,known,Point.holds,Point.mutex]

/-- An early look returns nil although there is no subscription yet. -/
theorem not_usable_of_looksEarly {name : String} {e : Event TopicCall (Option String)}
    (he : LooksEarly name sys e) : ¬ Usable name (Interleaving.step Node.advance sys e) := by
  obtain ⟨⟨i,fault,c,rfl,hi,rfl,hpoint⟩,d,hd,hname,m,sub,hstore⟩ := he
  obtain ⟨j,hj⟩ := List.mem_iff_getElem?.mp hd
  have hphase := v.phase hj
  have hop := v.op d hd
  have henabled := v.enabled d hd
  have hknown : sys.shared.known c.name = (true,true,false) := by
    simpa [Phase,hop,hstore,hname] using hphase
  have hadvance :
      sys.shared.advance c fault = some (sys.shared,{ c with point := .returned none }) := by
    simp_all [Node.advance,known]
  intro husable
  simp only [Interleaving.step,hi,hadvance] at husable
  have hlt := (List.getElem?_eq_some_iff.mp hi).1
  have hc := v.op c (List.mem_of_getElem? hi)
  have hsub := (husable ⟨_,List.mem_set hlt _,hc,rfl,rfl⟩).1
  simp_all [known,subscribe]

theorem known_of_returned {i : ℕ} (hi : sys.threads[i]? = some c)
    (h : sys.shared.advance c fault = some (n',c')) (hreturned : c'.point = .returned none)
    (hlate : ¬ LooksEarly c.name sys (.advance i fault)) :
    (n'.subs c.name).isSome ∧ (n'.topics c.name).isSome := by
  have hop := v.op c (List.mem_of_getElem? hi)
  have hphase := v.phase hi
  by_cases hpoint : c.point = .loadTopic
  · have hno : ¬ ∃ d ∈ sys.threads, d.name = c.name ∧ ∃ m sub, d.point = .storeSub m sub :=
      fun hd => hlate ⟨⟨i,fault,c,rfl,hi,rfl,hpoint⟩,hd⟩
    have hsubs : (sys.shared.topics c.name).isSome → (sys.shared.subs c.name).isSome :=
      fun htopic => v.subs_isSome htopic hno
    revert h hreturned
    fun_cases advance sys.shared c fault <;> intro h <;> cases h <;> simp_all
  · revert h hreturned
    fun_cases advance sys.shared c fault <;> intro h <;> cases h <;>
      simp_all [Phase,known,TopicOp.enter]

theorem usable_step {name : String} {e : Event TopicCall (Option String)} (he : JoinEvent e)
    (husable : Usable name sys) (hlate : ¬ LooksEarly name sys e) :
    Usable name (Interleaving.step Node.advance sys e) := by
  rcases step_cases Node.advance sys e with
    hsame | ⟨c,rfl,hspawn⟩ | ⟨i,fault,c,n',c',rfl,hi,h,hadvance⟩
  · rw [hsame]
    exact husable
  · obtain ⟨name',rfl⟩ := he
    rw [hspawn]
    rintro ⟨d,hd,hop,hname,hpoint⟩
    rcases List.mem_append.mp hd with hold | hnew
    · exact husable ⟨d,hold,hop,hname,hpoint⟩
    · rw [List.mem_singleton.mp hnew] at hpoint
      cases hpoint
  · rw [hadvance]
    rintro ⟨d,hd,hop,hname,hpoint⟩
    simp only [publish_ok_iff,subscribe]
    rcases List.mem_or_eq_of_mem_set hd with hold | rfl
    · have hbefore := husable ⟨d,hold,hop,hname,hpoint⟩
      rw [publish_ok_iff] at hbefore
      have hmono := advance_join_mono h (v.op c (List.mem_of_getElem? hi)) (v.phase hi) name
      exact ⟨hmono.2 hbefore.1,hmono.1 hbefore.2⟩
    · obtain rfl : c.name = name := (advance_same h).2.1.symm.trans hname
      exact v.known_of_returned hi h hpoint hlate

end Joining

/-- Joining makes a topic usable in exactly those runs of concurrent joins in which no
`JoinTopic` of the name takes its first look while another one stands between storing the
topic and storing the subscription. -/
theorem usable_throughout_iff (enabled : Bool) (name : String)
    (es : List (Event TopicCall (Option String))) (hes : ∀ e ∈ es, JoinEvent e) :
    Throughout advance (Usable name) ⟨new enabled,[]⟩ es ↔
      EachStep advance (fun sys e => ¬ LooksEarly name sys e) ⟨new enabled,[]⟩ es := by
  have hinv : ∀ sys e, Joining sys → JoinEvent e → Joining (step advance sys e) :=
    fun sys e hsys he => hsys.step he
  refine throughout_iff_eachStep hinv ?_ (joining_new enabled) (by simp [Usable]) hes
  intro sys e hsys he husable
  constructor
  · intro hnext hearly
    exact hsys.not_usable_of_looksEarly hearly hnext
  · exact hsys.usable_step he husable

def lookAfterJoin : List (Event TopicCall (Option String)) :=
  .spawn (call .joinTopic "t") :: (List.replicate 9 (.advance 0 none)).append
    [.spawn (call .joinTopic "t"),.advance 1 none]

theorem usable_lookAfterJoin :
    Throughout advance (Usable "t") ⟨new true,[]⟩ lookAfterJoin ↔
      EachStep advance (fun sys e => ¬ LooksEarly "t" sys e) ⟨new true,[]⟩ lookAfterJoin :=
  usable_throughout_iff true "t" lookAfterJoin (by simp [lookAfterJoin,JoinEvent])

/-- Of two calls the second takes its first look when the first has stored the topic and not
yet the subscription. -/
def lookBetweenStores : List (Event TopicCall (Option String)) :=
  .spawn (call .joinTopic "t") :: .spawn (call .joinTopic "t") ::
    (List.replicate 7 (.advance 0 none)).append [.advance 1 none]

/-- The second call has then returned nil, and `Subscribe` returns nothing. -/
theorem subscribe_lookBetweenStores :
    (∀ e ∈ lookBetweenStores, JoinEvent e) ∧
      (run advance ⟨new true,[]⟩ lookBetweenStores).threads[1]? =
        some ⟨.joinTopic,"t",.returned none⟩ ∧
      (run advance ⟨new true,[]⟩ lookBetweenStores).shared.subscribe "t" = none :=
  ⟨by simp [lookBetweenStores,JoinEvent],rfl,rfl⟩

end P2PForge.Node
