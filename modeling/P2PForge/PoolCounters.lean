import P2PForge.FramePooled

/-! The counters of the pool.
`Get` counts every request: a hit if a tier serves it, a miss if it is larger than all of them.
A frame read asks for a buffer of the declared length once this is accepted, whether its body
then arrives or not. Up to the largest tier it does so through `Get`; a larger frame gets a
buffer that grows, and this is counted nowhere. -/
namespace P2PForge.Codec

/-- The size of the buffer that an event asks for: the argument of `Get`, or the length that a
frame declares if it is accepted. -/
def PoolEvent.asks : PoolEvent → Option ℕ
  | .get size _ => some size
  | .readFramePooled r idle s _ => (readFrameLength r idle s).1.toOption
  | _ => none

def PoolEvent.pooled (e : PoolEvent) : Bool := e.asks.any (· ≤ tierLarge)

def PoolEvent.oversize (e : PoolEvent) : Bool := e.asks.any (tierLarge < ·)

def PoolEvent.grown : PoolEvent → Bool
  | .readFramePooled r idle s pick => (PoolEvent.readFramePooled r idle s pick).oversize
  | _ => false

theorem PoolEvent.asks_cases (e : PoolEvent) :
    (e.asks = none ∧ e.pooled = false ∧ e.oversize = false) ∨
    (∃ size ≤ tierLarge, e.asks = some size ∧ e.pooled = true ∧ e.oversize = false) ∨
    ∃ size > tierLarge, e.asks = some size ∧ e.pooled = false ∧ e.oversize = true := by
  unfold pooled oversize
  cases e.asks with
  | none => exact .inl ⟨rfl,rfl,rfl⟩
  | some size =>
    by_cases hsize : size ≤ tierLarge
    · exact .inr (.inl ⟨size,hsize,rfl,by simp [hsize],by simp [hsize]⟩)
    · exact .inr (.inr ⟨size,not_le.mp hsize,rfl,by simp [hsize],by simpa using hsize⟩)

theorem countP_asks (es : List PoolEvent) :
    es.countP (·.asks.isSome) = es.countP PoolEvent.pooled + es.countP PoolEvent.oversize := by
  induction es with
  | nil => rfl
  | cons e es ih =>
    rw [List.countP_cons,List.countP_cons,List.countP_cons,ih]
    rcases e.asks_cases with ⟨hasks,hpooled,hover⟩ | ⟨_,_,hasks,hpooled,hover⟩ |
      ⟨_,_,hasks,hpooled,hover⟩
    all_goals
      simp only [hasks,hpooled,hover,Option.isSome_none,Option.isSome_some,if_true,
        Bool.false_eq_true,if_false]
      omega

namespace BufferPool

/-- `Hits.Load()`: `hits` counts how often one was added to a 64-bit integer. -/
def loadHits (bp : BufferPool) : Int64 := Int64.ofNat bp.hits

def loadMisses (bp : BufferPool) : Int64 := Int64.ofNat bp.misses

def counters (bp : BufferPool) : ℕ × ℕ := (bp.hits,bp.misses)

variable {bp bp' : BufferPool}

theorem counters_poolGet (bp : BufferPool) (tier : Tier) (pick : ℕ) :
    (bp.poolGet tier pick).2.counters = bp.counters := by
  unfold poolGet
  split <;> rfl

theorem counters_release (bp : BufferPool) (i : ℕ) : (bp.release i).counters = bp.counters := by
  fun_cases release bp i <;> rfl

theorem counters_fill (bp : BufferPool) (i : ℕ) (content : List UInt8) :
    (bp.fill i content).counters = bp.counters := by
  unfold fill
  split <;> rfl

theorem tierFor_eq_none_iff (size : ℕ) : tierFor size = none ↔ tierLarge < size := by
  have hmedium : tierSmall ≤ tierMedium := by decide
  have hlarge : tierMedium ≤ tierLarge := by decide
  unfold tierFor
  split_ifs <;> simp <;> omega

theorem counters_get {size pick i : ℕ} (h : bp.get size pick = some (i,bp')) :
    bp'.counters =
      if tierLarge < size then (bp.hits,bp.misses + 1) else (bp.hits + 1,bp.misses) := by
  revert h
  fun_cases get bp size pick with
  | case1 =>
    intro h
    cases h
  | case2 tier htier b taken hpick data hdata =>
    have hcounters := counters_poolGet bp tier pick
    rw [hpick] at hcounters
    obtain ⟨hhits,hmisses⟩ := Prod.mk.inj hcounters
    have hsmall : ¬ tierLarge < size := by
      rw [← tierFor_eq_none_iff,htier]
      exact Option.some_ne_none tier
    rintro ⟨⟩
    rw [if_neg hsmall,← hhits,← hmisses]
    rfl
  | case3 htier data made hmake =>
    cases hmake
    rintro ⟨⟩
    rw [if_pos ((tierFor_eq_none_iff size).mp htier)]
    rfl

/-- A frame read counts a hit if the length is accepted and fits a tier, and otherwise nothing,
whatever becomes of the body. -/
theorem counters_readFramePooled {σ : Type} {r : Reader σ} {idle : Duration} {s : σ} {pick : ℕ}
    {out : PooledRead σ} (h : readFramePooledWithTimeout r idle s bp pick = some out) :
    out.pool.counters =
      if (PoolEvent.readFramePooled r idle s pick).pooled then (bp.hits + 1,bp.misses)
      else bp.counters := by
  unfold PoolEvent.pooled PoolEvent.asks
  revert h
  fun_cases readFramePooledWithTimeout r idle s bp pick with
  | case1 e s₁ hlength =>
    rintro ⟨⟩
    simp [hlength,Except.toOption]
  | case2 length s₁ hlength hlarge e s₂ hbody =>
    rintro ⟨⟩
    simp [hlength,Except.toOption,hlarge]
  | case3 length s₁ hlength hlarge data s₂ hbody b bp' hnew =>
    cases hnew
    rintro ⟨⟩
    simp only [hlength,Except.toOption,Option.any_some,decide_eq_true_eq,
      if_neg (not_le.mpr hlarge)]
    rfl
  | case4 =>
    intro h
    cases h
  | case5 length s₁ hlength hsmall b taken hget e content s₂ hbody =>
    rintro ⟨⟩
    have hcounters := counters_get hget
    rw [if_neg hsmall] at hcounters
    simp [hlength,Except.toOption,not_lt.mp hsmall,counters_release,counters_fill,hcounters]
  | case6 length s₁ hlength hsmall b taken hget content s₂ hbody =>
    rintro ⟨⟩
    have hcounters := counters_get hget
    rw [if_neg hsmall] at hcounters
    simp [hlength,Except.toOption,not_lt.mp hsmall,counters_fill,hcounters]

theorem counters_step {e : PoolEvent} (h : bp.step e = some bp') :
    bp'.hits = bp.hits + (if e.pooled then 1 else 0) ∧
      bp'.misses + (if e.grown then 1 else 0) = bp.misses + if e.oversize then 1 else 0 := by
  cases e with
  | get size pick =>
    obtain ⟨⟨i,taken⟩,hget,rfl⟩ := Option.map_eq_some_iff.mp h
    have hcounters := counters_get hget
    by_cases hlarge : tierLarge < size
    · rw [if_pos hlarge] at hcounters
      obtain ⟨hhits,hmisses⟩ := Prod.mk.inj hcounters
      simp [PoolEvent.pooled,PoolEvent.oversize,PoolEvent.grown,PoolEvent.asks,hlarge,hhits,hmisses]
    · rw [if_neg hlarge] at hcounters
      obtain ⟨hhits,hmisses⟩ := Prod.mk.inj hcounters
      simp [PoolEvent.pooled,PoolEvent.oversize,PoolEvent.grown,PoolEvent.asks,hlarge,
        not_lt.mp hlarge,hhits,hmisses]
  | readFramePooled r idle s pick =>
    obtain ⟨out,hread,rfl⟩ := Option.map_eq_some_iff.mp h
    have hcounters := counters_readFramePooled hread
    split_ifs at hcounters with hpooled
    · obtain ⟨hhits,hmisses⟩ := Prod.mk.inj hcounters
      exact ⟨by rw [hhits,if_pos hpooled],congrArg (· + _) hmisses⟩
    · obtain ⟨hhits,hmisses⟩ := Prod.mk.inj hcounters
      exact ⟨by rw [hhits,if_neg hpooled,Nat.add_zero],congrArg (· + _) hmisses⟩
  | release i =>
    obtain rfl := Option.some.inj h
    obtain ⟨hhits,hmisses⟩ := Prod.mk.inj (counters_release bp i)
    exact ⟨hhits,hmisses⟩
  | lose tier pick =>
    obtain rfl := Option.some.inj h
    exact ⟨rfl,rfl⟩
  | write array off bytes =>
    obtain rfl := Option.some.inj h
    exact ⟨rfl,rfl⟩

theorem counters_run {es : List PoolEvent} (h : bp.run es = some bp') :
    bp'.hits = bp.hits + es.countP PoolEvent.pooled ∧
      bp'.misses + es.countP PoolEvent.grown = bp.misses + es.countP PoolEvent.oversize := by
  induction es generalizing bp with
  | nil =>
    obtain rfl := Option.some.inj h
    exact ⟨rfl,rfl⟩
  | cons e es ih =>
    obtain ⟨bp₁,hstep,hrun⟩ := Option.bind_eq_some_iff.mp h
    obtain ⟨hhits,hmisses⟩ := counters_step hstep
    obtain ⟨hhits',hmisses'⟩ := ih hrun
    rw [List.countP_cons,List.countP_cons,List.countP_cons]
    omega

end BufferPool

/-- A counter of 64 bits shows a number that is at least how often one was added exactly if it is
that, and there was no overflow. -/
theorem toInt_ofNat_eq_iff {n m : ℕ} (h : n ≤ m) :
    (Int64.ofNat n).toInt = m ↔ n = m ∧ m < 2^63 := by
  by_cases hn : n < 2^63
  · rw [Int64.toInt_ofNat_of_lt hn]
    omega
  · have hlt := (Int64.ofNat n).toInt_lt
    omega

namespace BufferPool

/-- The counters show the requests: misses are those beyond the largest tier, hits the others. -/
structure Accounts (bp : BufferPool) (es : List PoolEvent) : Prop where
  misses : bp.loadMisses.toInt = es.countP PoolEvent.oversize
  hits : bp.loadHits.toInt = es.countP PoolEvent.pooled
  total : bp.loadHits.toInt + bp.loadMisses.toInt = es.countP (·.asks.isSome)

/-- Pool accounting. After a run from a new pool the counters show the requests exactly if no frame
beyond the largest tier was read, and no counter has overflown. -/
theorem accounts_iff (es : List PoolEvent) :
    ∃ bp, newBufferPool.run es = some bp ∧
      (bp.Accounts es ↔ (∀ e ∈ es, e.grown = false) ∧
        es.countP PoolEvent.oversize < 2^63 ∧ es.countP PoolEvent.pooled < 2^63) := by
  obtain ⟨bp,hrun,_⟩ := valid_newBufferPool.run es
  obtain ⟨hhits,hmisses⟩ := counters_run hrun
  have hzero : newBufferPool.hits = 0 ∧ newBufferPool.misses = 0 := ⟨rfl,rfl⟩
  rw [hzero.1,Nat.zero_add] at hhits
  rw [hzero.2,Nat.zero_add] at hmisses
  have hloadHits : bp.loadHits.toInt = es.countP PoolEvent.pooled ↔
      es.countP PoolEvent.pooled < 2^63 := by
    rw [loadHits,toInt_ofNat_eq_iff hhits.le]
    exact and_iff_right hhits
  have hloadMisses : bp.loadMisses.toInt = es.countP PoolEvent.oversize ↔
      (∀ e ∈ es, e.grown = false) ∧ es.countP PoolEvent.oversize < 2^63 := by
    have hnone : bp.misses = es.countP PoolEvent.oversize ↔ ∀ e ∈ es, e.grown = false := by
      rw [← hmisses,left_eq_add,List.countP_eq_zero]
      simp
    rw [loadMisses,toInt_ofNat_eq_iff (by omega),hnone]
  refine ⟨bp,hrun,?_⟩
  constructor
  · intro h
    obtain ⟨hnone,hover⟩ := hloadMisses.mp h.misses
    exact ⟨hnone,hover,hloadHits.mp h.hits⟩
  · rintro ⟨hnone,hover,hpooled⟩
    have hshown := hloadHits.mpr hpooled
    have hmissed := hloadMisses.mpr ⟨hnone,hover⟩
    refine ⟨hmissed,hshown,?_⟩
    rw [hshown,hmissed,countP_asks]
    push_cast
    rfl

/-- A frame that declares one byte more than the largest tier has, and ends there: a buffer was
asked for and no miss is counted. -/
theorem large_frame_uncounted :
    let e := PoolEvent.readFramePooled Fragments.reader 0 ⟨[[0,16,0,1]],.eof,false⟩ 0
    e.asks = some (tierLarge + 1) ∧
      ∃ bp, newBufferPool.run [e] = some bp ∧ bp.loadMisses = 0 ∧ ¬ bp.Accounts [e] := by
  intro e
  have hstream : Fragments.carries.pending ⟨[[0,16,0,1]],.eof,false⟩ =
      putUint32 (tierLarge + 1) ++ [] := by decide
  have hasks : e.asks = some (tierLarge + 1) := by
    have hlength := (readFrameLength_of_pending Fragments.carries (by decide) hstream).1
    rw [if_neg (by decide),if_neg (by decide)] at hlength
    simp only [e,PoolEvent.asks,hlength,Except.toOption]
  have hover : [e].countP PoolEvent.oversize = 1 := by
    rw [List.countP_singleton,PoolEvent.oversize,hasks]
    decide
  obtain ⟨bp,hrun,_⟩ := valid_newBufferPool.run [e]
  have hmisses : bp.misses = 0 := by
    have hcount := (counters_run hrun).2
    -- reading it is the one way to ask for too much that is not counted
    have hgrown : [e].countP PoolEvent.grown = [e].countP PoolEvent.oversize := rfl
    rw [hgrown] at hcount
    exact Nat.add_right_cancel hcount
  have hshown : bp.loadMisses = 0 := by
    rw [loadMisses,hmisses]
    rfl
  refine ⟨hasks,bp,hrun,hshown,fun h => ?_⟩
  have hone := h.misses
  rw [hshown,hover] at hone
  cases hone

end BufferPool
end P2PForge.Codec
