import P2PForge.FramePooled
import P2PForge.Interleaving

/-! Pooled reads beside each other.
Any number of frames are read at the same time, each from its own stream, into buffers of one pool,
while buffers that were returned are released. A read takes its buffer in one step and fills it
chunk by chunk; a release first claims the handle and then puts the array back. Between these two
steps the array is nobody's: seen as if it were released only with the second, the pool stays valid,
and so no read finds another one's bytes in its buffer. -/
namespace P2PForge.Codec

open BufferPool Interleaving

variable {σ : Type}

namespace BufferPool

/-- `pb.released.CompareAndSwap(false, true)`, if it succeeds. -/
def swap (bp : BufferPool) (b : ℕ) : Option BufferPool :=
  match bp.handles[b]? with
  | none => none
  | some h => if h.released then none else some (bp.markReleased b h)

/-- The rest of `Release`: the array goes back to its tier's pool. -/
def putBack (bp : BufferPool) (b : ℕ) : BufferPool :=
  match bp.handles[b]? with
  | none => bp
  | some h =>
    match h.tier with
    | some tier => bp.poolPut tier { h.data with len := h.data.cap }
    | none => bp

def store (bp : BufferPool) (b off : ℕ) (bytes : List UInt8) : BufferPool :=
  match bp.handles[b]? with
  | none => bp
  | some h => bp.write h.data.array off bytes

end BufferPool

/-- Where a `ReadFramePooledWithTimeout` stands, by what it does next. -/
inductive ReadPoint (σ : Type)
  | length
  | get (length : ℕ) (s : σ)
  | chunk (b off : ℕ) (s : σ)
  | release (b : ℕ) (e : FrameErr) (s : σ)
  | put (b : ℕ) (e : FrameErr) (s : σ)
  | returned (result : Except FrameErr ℕ) (s : σ)

/-- A read from a stream, a `Release` of a buffer that a read has returned, or the collector that
takes items out of the pools. -/
inductive PoolWorker (σ : Type)
  | read (start : σ) (point : ReadPoint σ)
  | release (b : ℕ)
  | put (b : ℕ)
  | released (b : ℕ)
  | collector

structure Pick where
  item : ℕ
  tier : Tier

section Steps

variable (r : Reader σ) (idle : Duration)

/-- The next step of a read. All that it does to its own stream between two steps on the pool is one
step with the first of them. -/
def readStep (bp : BufferPool) (start : σ) (a : Pick) :
    ReadPoint σ → Option (BufferPool × ReadPoint σ)
  | .length =>
    match readFrameLength r idle start with
    | (.error e,s) => some (bp,.returned (.error e) s)
    | (.ok length,s) =>
      if length > tierLarge then
        match readLargeBody r length idle [] s with
        | (.error e,s) => some (bp,.returned (.error e) s)
        | (.ok data,s) =>
          let (b,bp) := (bp.alloc data).2.newHandle (bp.alloc data).1 none
          some (bp,.returned (.ok b) s)
      else some (bp,.get length s)
  | .get length s => (bp.get length a.item).map fun taken => (taken.2,.chunk taken.1 0 s)
  | .chunk b off s =>
    if off < bp.len b then
      let out := r.readFull (min (off + chunkSize) (bp.len b) - off) (armRead r idle s)
      match out.err with
      | some e => some (bp.store b off out.bytes,.release b (.readData e) out.next)
      | none => some (bp.store b off out.bytes,.chunk b (off + chunkSize) out.next)
    else some (bp,.returned (.ok b) s)
  | .release b e s =>
    match bp.swap b with
    | none => some (bp,.returned (.error e) s)
    | some bp => some (bp,.put b e s)
  | .put b e s => some (bp.putBack b,.returned (.error e) s)
  | .returned _ _ => none

def poolStep (bp : BufferPool) (w : PoolWorker σ) (a : Pick) :
    Option (BufferPool × PoolWorker σ) :=
  match w with
  | .read start point =>
    (readStep r idle bp start a point).map fun next => (next.1,.read start next.2)
  | .release b =>
    match bp.swap b with
    | none => some (bp,.released b)
    | some bp => some (bp,.put b)
  | .put b => some (bp.putBack b,.released b)
  | .released _ => none
  | .collector => some (bp.poolDrop a.tier a.item,.collector)

end Steps

namespace BufferPool

variable {bp bp' : BufferPool} {pending pending' : ℕ → Bool} {b : ℕ} {h : PoolBuffer}

theorem swap_of_live (hb : bp.handles[b]? = some h) (hlive : h.released = false) :
    bp.swap b = some (bp.markReleased b h) := by
  simp only [swap,hb,hlive,Bool.false_eq_true,if_false]

theorem swap_eq_some (hswap : bp.swap b = some bp') :
    ∃ h, bp.handles[b]? = some h ∧ h.released = false ∧ bp' = bp.markReleased b h := by
  unfold swap at hswap
  split at hswap
  · cases hswap
  · rename_i h hb
    split_ifs at hswap with hreleased
    exact ⟨h,hb,by simpa using hreleased,(Option.some.inj hswap).symm⟩

theorem handles_markReleased (hb : bp.handles[b]? = some h) :
    (bp.markReleased b h).handles[b]? = some { h with released := true } :=
  List.getElem?_set_self (List.getElem?_eq_some_iff.mp hb).1

theorem release_eq (bp : BufferPool) (b : ℕ) :
    bp.release b = (bp.swap b).elim bp fun claimed => claimed.putBack b := by
  fun_cases release bp b with
  | case1 hnone => simp only [swap,hnone,Option.elim_none]
  | case2 h hb hreleased => simp only [swap,hb,hreleased,if_true,Option.elim_none]
  | case3 h hb hlive tier htier =>
    rw [swap_of_live hb (by simpa using hlive),Option.elim_some,putBack,handles_markReleased hb]
    simp only [htier]
  | case4 h hb hlive htier =>
    rw [swap_of_live hb (by simpa using hlive),Option.elim_some,putBack,handles_markReleased hb]
    simp only [htier]

/-- The pool as if a handle were released only when its array is put back. -/
def settle (bp : BufferPool) (pending : ℕ → Bool) : BufferPool :=
  { bp with
    handles := bp.handles.mapIdx fun b h => { h with released := h.released && !pending b } }

theorem handles_settle (bp : BufferPool) (pending : ℕ → Bool) (b : ℕ) :
    (bp.settle pending).handles[b]? =
      bp.handles[b]?.map fun h => { h with released := h.released && !pending b } := by
  simp [settle]

theorem settle_ext (harrays : bp'.arrays = bp.arrays) (hpools : bp'.pools = bp.pools)
    (hhits : bp'.hits = bp.hits) (hmisses : bp'.misses = bp.misses)
    (hhandles : ∀ b : ℕ, (bp'.settle pending').handles[b]? = (bp.settle pending).handles[b]?) :
    bp'.settle pending' = bp.settle pending := by
  have hlist : (bp'.settle pending').handles = (bp.settle pending).handles :=
    List.ext_getElem? hhandles
  rw [settle,settle] at hlist ⊢
  simp only [BufferPool.mk.injEq]
  exact ⟨harrays,hlist,hpools,hhits,hmisses⟩

theorem settle_newHandle {data : Slice} {tier : Option Tier}
    (hfresh : pending bp.handles.length = false) :
    (bp.newHandle data tier).2.settle pending = ((bp.settle pending).newHandle data tier).2 := by
  simp [newHandle,settle,List.mapIdx_append,hfresh]

theorem poolGet_settle (bp : BufferPool) (pending : ℕ → Bool) (tier : Tier) (pick : ℕ) :
    (bp.settle pending).poolGet tier pick =
      ((bp.poolGet tier pick).1,(bp.poolGet tier pick).2.settle pending) := by
  have hpools : (bp.settle pending).pools = bp.pools := rfl
  unfold poolGet
  rw [hpools]
  split <;> rfl

theorem handles_poolGet (bp : BufferPool) (tier : Tier) (pick : ℕ) :
    (bp.poolGet tier pick).2.handles = bp.handles := by
  unfold poolGet
  split <;> rfl

theorem get_settle {size pick : ℕ} (hfresh : pending bp.handles.length = false) :
    (bp.settle pending).get size pick =
      (bp.get size pick).map fun taken => (taken.1,taken.2.settle pending) := by
  have hlength : ∀ {p : BufferPool}, p.handles = bp.handles → pending p.handles.length = false := by
    intro p hp
    rw [hp]
    exact hfresh
  cases htier : tierFor size with
  | some tier =>
    simp only [get,htier,poolGet_settle]
    split
    · rfl
    · have hhandles := handles_poolGet bp tier pick
      rw [Option.map_some,settle_newHandle (hlength (by exact hhandles))]
      simp [newHandle,settle]
  | none =>
    simp only [get,htier]
    rw [Option.map_some,settle_newHandle (hlength (by rfl))]
    simp [newHandle,settle,make,alloc]

theorem handles_settle_of_live (hb : bp.handles[b]? = some h) (hlive : h.released = false) :
    (bp.settle pending).handles[b]? = some h := by
  rw [handles_settle,hb,Option.map_some,hlive,Bool.false_and,← hlive]

/-- Claiming a handle is not seen yet. -/
theorem settle_swap (hswap : bp.swap b = some bp') (hb : pending' b = true)
    (hother : ∀ c, c ≠ b → pending' c = pending c) : bp'.settle pending' = bp.settle pending := by
  obtain ⟨h,hget,hlive,rfl⟩ := swap_eq_some hswap
  refine settle_ext rfl rfl rfl rfl fun c => ?_
  rw [handles_settle,handles_settle]
  by_cases hc : c = b
  · subst hc
    rw [handles_markReleased hget,hget]
    simp [hb,hlive]
  · rw [markReleased,List.getElem?_set_ne (Ne.symm hc),hother c hc]

theorem settle_putBack (hb : bp.handles[b]? = some h) (hreleased : h.released = true)
    (hpending : pending b = true) (hpending' : pending' b = false)
    (hother : ∀ c, c ≠ b → pending' c = pending c) :
    (bp.putBack b).settle pending' = (bp.settle pending).release b := by
  have hlive : (bp.settle pending).handles[b]? = some { h with released := false } := by
    rw [handles_settle,hb]
    simp [hpending]
  have hmark : bp.settle pending' =
      (bp.settle pending).markReleased b { h with released := false } := by
    have hlist : (bp.settle pending').handles =
        (bp.settle pending).handles.set b { h with released := true } := by
      apply List.ext_getElem?
      intro c
      by_cases hc : c = b
      · subst hc
        rw [List.getElem?_set_self (List.getElem?_eq_some_iff.mp hlive).1,handles_settle,hb]
        simp [hreleased,hpending']
      · rw [List.getElem?_set_ne (Ne.symm hc),handles_settle,handles_settle,hother c hc]
    rw [markReleased,← hlist]
    rfl
  rw [release_eq,swap_of_live hlive rfl,Option.elim_some,← hmark,putBack,putBack,handles_settle,hb]
  simp only [Option.map_some]
  cases h.tier <;> rfl

end BufferPool

def PoolWorker.puts : PoolWorker σ → Option ℕ
  | .read _ (.put b _ _) | .put b => some b
  | _ => none

def PoolWorker.owns : PoolWorker σ → Option ℕ
  | .read _ (.chunk b _ _) | .read _ (.release b _ _) | .read _ (.put b _ _)
  | .read _ (.returned (.ok b) _) => some b
  | _ => none

/-- What a step does to the pool, with what the worker is about to put back and its handle, both
before and after. -/
inductive Effect (bp : BufferPool) : BufferPool → Option ℕ → Option ℕ → Option ℕ → Option ℕ → Prop
  | keep {o o'} : o' = o ∨ o' = none → Effect bp bp none none o o'
  | get {bp' b size pick} : bp.get size pick = some (b,bp') → Effect bp bp' none none none (some b)
  | grow {data} : Effect bp ((bp.alloc data).2.newHandle (bp.alloc data).1 none).2 none none none
      (some bp.handles.length)
  | store {b off bytes} : Effect bp (bp.store b off bytes) none none (some b) (some b)
  | swap {bp' b o} : bp.swap b = some bp' → Effect bp bp' none (some b) o o
  | put {b o o'} : o' = o ∨ o' = none → Effect bp (bp.putBack b) (some b) none o o'
  | drop {tier pick} : Effect bp (bp.poolDrop tier pick) none none none none

variable {r : Reader σ} {idle : Duration} {bp bp' : BufferPool} {w w' : PoolWorker σ} {a : Pick}
  {b : ℕ} {h : PoolBuffer}

theorem effect_of_poolStep (hstep : poolStep r idle bp w a = some (bp',w')) :
    Effect bp bp' w.puts w'.puts w.owns w'.owns := by
  cases w with
  | read start point =>
    obtain ⟨⟨bp₁,point'⟩,hread,hpair⟩ := Option.map_eq_some_iff.mp hstep
    cases hpair
    cases point with
    | length =>
      simp only [readStep] at hread
      split at hread
      · cases hread
        exact .keep (.inl rfl)
      · split_ifs at hread
        · split at hread
          · cases hread
            exact .keep (.inl rfl)
          · cases hread
            exact .grow
        · cases hread
          exact .keep (.inl rfl)
    | get length s =>
      obtain ⟨⟨b,taken⟩,hget,hpair⟩ := Option.map_eq_some_iff.mp hread
      cases hpair
      exact .get hget
    | chunk b off s =>
      simp only [readStep] at hread
      split_ifs at hread
      · split at hread <;> cases hread <;> exact .store
      · cases hread
        exact .keep (.inl rfl)
    | release b e s =>
      simp only [readStep] at hread
      split at hread
      · cases hread
        exact .keep (.inr rfl)
      · rename_i claimed hswap
        cases hread
        exact .swap hswap
    | put b e s =>
      cases hread
      exact .put (.inr rfl)
    | returned result s => cases hread
  | release b =>
    simp only [poolStep] at hstep
    split at hstep
    · cases hstep
      exact .keep (.inl rfl)
    · rename_i claimed hswap
      cases hstep
      exact .swap hswap
  | put b =>
    cases hstep
    exact .put (.inl rfl)
  | released b => cases hstep
  | collector =>
    cases hstep
    exact .drop

theorem Effect.handle {p p' o o' : Option ℕ} (heffect : Effect bp bp' p p' o o')
    (hb : bp.handles[b]? = some h) :
    ∃ h', bp'.handles[b]? = some h' ∧ h'.data = h.data ∧
      (h.released = true → h'.released = true) ∧
      (h'.released = true → h.released = true ∨ p' = some b) := by
  have hsame : ∀ {q : BufferPool}, q.handles[b]? = bp.handles[b]? →
      ∃ h', q.handles[b]? = some h' ∧ h'.data = h.data ∧
        (h.released = true → h'.released = true) ∧
        (h'.released = true → h.released = true ∨ p' = some b) :=
    fun hq => ⟨h,hq.trans hb,rfl,id,.inl⟩
  have hlt := (List.getElem?_eq_some_iff.mp hb).1
  cases heffect with
  | keep => exact hsame rfl
  | get hget =>
    obtain ⟨_,buf,hhandles,_⟩ := handles_get hget
    exact hsame (by rw [hhandles,List.getElem?_append_left hlt])
  | grow => exact hsame (List.getElem?_append_left hlt)
  | @store c off bytes =>
    apply hsame
    unfold BufferPool.store
    split <;> rfl
  | @swap bp' c o hswap =>
    obtain ⟨h₀,hc,hlive,rfl⟩ := swap_eq_some hswap
    by_cases hcb : c = b
    · subst hcb
      obtain rfl := Option.some.inj (hc.symm.trans hb)
      exact ⟨_,handles_markReleased hc,rfl,fun _ => rfl,fun _ => .inr rfl⟩
    · exact hsame (List.getElem?_set_ne hcb)
  | @put c o o' =>
    apply hsame
    unfold putBack
    split
    · rfl
    · split <;> rfl
  | drop => exact hsame rfl

theorem length_handles_le {p p' o o' : Option ℕ} (heffect : Effect bp bp' p p' o o') :
    bp.handles.length ≤ bp'.handles.length := by
  by_contra hlt
  have hlast : bp'.handles.length < bp.handles.length := not_le.mp hlt
  obtain ⟨h',hb',_⟩ := heffect.handle (List.getElem?_eq_getElem hlast)
  exact absurd (List.getElem?_eq_some_iff.mp hb').1 (lt_irrefl _)

theorem arrays_get {size pick : ℕ} (hget : bp.get size pick = some (b,bp')) :
    ∃ more, bp'.arrays = bp.arrays ++ more := by
  have hpool : ∀ tier, ∃ more, (bp.poolGet tier pick).2.arrays = bp.arrays ++ more := by
    intro tier
    unfold poolGet
    split
    · exact ⟨[],(List.append_nil _).symm⟩
    · exact ⟨_,rfl⟩
  revert hget
  fun_cases BufferPool.get bp size pick with
  | case1 =>
    intro hget
    cases hget
  | case2 tier htier slice taken hpick data hdata =>
    intro hget
    cases hget
    obtain ⟨more,hmore⟩ := hpool tier
    rw [hpick] at hmore
    exact ⟨more,hmore⟩
  | case3 htier data made hmake =>
    intro hget
    cases hget
    cases hmake
    exact ⟨_,rfl⟩

theorem Effect.array {p p' o o' : Option ℕ} (heffect : Effect bp bp' p p' o o') {x : ℕ}
    (hx : x < bp.arrays.length) :
    bp'.arrays[x]? = bp.arrays[x]? ∨
      ∃ b h, o = some b ∧ p = none ∧ p' = none ∧ bp.handles[b]? = some h ∧ h.data.array = x := by
  cases heffect with
  | keep => exact .inl rfl
  | get hget =>
    obtain ⟨more,hmore⟩ := arrays_get hget
    rw [hmore]
    exact .inl (List.getElem?_append_left hx)
  | grow => exact .inl (List.getElem?_append_left hx)
  | @store b off bytes =>
    unfold BufferPool.store
    split
    · exact .inl rfl
    · rename_i h hb
      by_cases hsame : h.data.array = x
      · exact .inr ⟨b,h,rfl,rfl,rfl,hb,hsame⟩
      · left
        simp [BufferPool.write,hsame]
  | swap hswap =>
    obtain ⟨h,_,_,rfl⟩ := swap_eq_some hswap
    exact .inl rfl
  | @put c =>
    left
    unfold putBack
    split
    · rfl
    · split <;> rfl
  | drop => exact .inl rfl

/-- Whoever is about to put an array back has claimed its handle, and nobody else. -/
def putting (r : Reader σ) (idle : Duration) : Locking (poolStep r idle) ℕ where
  holds := PoolWorker.puts
  locked bp b := ∃ h, bp.handles[b]? = some h ∧ h.released = true
  taken := by
    intro bp w a bp' w' b hstep hb hheld
    have heffect := effect_of_poolStep hstep
    rw [hb] at heffect
    generalize w.puts = p,w.owns = o,w'.owns = o' at heffect hheld
    cases heffect with
    | swap hswap =>
      obtain ⟨h,hget,_,rfl⟩ := swap_eq_some hswap
      exact ⟨_,handles_markReleased hget,rfl⟩
  free := by
    intro bp w a bp' w' b hstep hb hheld
    have heffect := effect_of_poolStep hstep
    rw [hb] at heffect
    generalize w.puts = p,w.owns = o,w'.owns = o' at heffect hheld
    cases heffect with
    | swap hswap =>
      obtain ⟨h,hget,hlive,rfl⟩ := swap_eq_some hswap
      rintro ⟨h',hget',hreleased⟩
      obtain rfl := Option.some.inj (hget.symm.trans hget')
      rw [hlive] at hreleased
      cases hreleased
  kept := by
    intro bp w a bp' w' b hstep hlocked _
    obtain ⟨h,hb,hreleased⟩ := hlocked
    obtain ⟨h',hb',_,hkeeps,_⟩ := (effect_of_poolStep hstep).handle hb
    exact ⟨h',hb',hkeeps hreleased⟩

def owning (r : Reader σ) (idle : Duration) : Locking (poolStep r idle) ℕ where
  holds := PoolWorker.owns
  locked bp b := b < bp.handles.length
  taken := by
    intro bp w a bp' w' b hstep hb hheld
    have heffect := effect_of_poolStep hstep
    have hle := length_handles_le heffect
    rw [hb] at heffect
    generalize w.puts = p,w'.puts = p',w.owns = o at heffect hheld
    cases heffect with
    | keep hsame =>
      exact (hheld (by simpa [eq_comm] using hsame)).trans_le hle
    | get hget =>
      obtain ⟨rfl,buf,hhandles,_⟩ := handles_get hget
      simp [hhandles]
    | grow => simp [newHandle,alloc]
    | store => exact (hheld rfl).trans_le hle
    | swap => exact (hheld rfl).trans_le hle
    | put hsame => exact (hheld (by simpa [eq_comm] using hsame)).trans_le hle
  free := by
    intro bp w a bp' w' b hstep hb hheld
    have heffect := effect_of_poolStep hstep
    rw [hb] at heffect
    generalize w.puts = p,w'.puts = p',w.owns = o at heffect hheld
    cases heffect with
    | keep hsame => exact absurd (by simpa [eq_comm] using hsame) hheld
    | get hget =>
      obtain ⟨rfl,_⟩ := handles_get hget
      exact lt_irrefl _
    | grow => exact lt_irrefl _
    | store => exact absurd rfl hheld
    | swap => exact absurd rfl hheld
    | put hsame => exact absurd (by simpa [eq_comm] using hsame) hheld
  kept := by
    intro bp w a bp' w' b hstep hlt _
    exact hlt.trans_le (length_handles_le (effect_of_poolStep hstep))

def pending (ws : List (PoolWorker σ)) (b : ℕ) : Bool := ws.any fun w => w.puts = some b

section Pending

variable {ws : List (PoolWorker σ)} {i : ℕ}

theorem pending_iff : pending ws b = true ↔ ∃ i : ℕ, ∃ w, ws[i]? = some w ∧ w.puts = some b := by
  simp only [pending,List.any_eq_true,decide_eq_true_eq,List.mem_iff_getElem?]
  exact ⟨fun ⟨w,⟨i,hi⟩,hw⟩ => ⟨i,w,hi,hw⟩,fun ⟨i,w,hi,hw⟩ => ⟨w,⟨i,hi⟩,hw⟩⟩

theorem pending_set (hi : ws[i]? = some w) :
    pending (ws.set i w') b = true ↔
      w'.puts = some b ∨ ∃ j ≠ i, ∃ d, ws[j]? = some d ∧ d.puts = some b := by
  have hself : (ws.set i w')[i]? = some w' :=
    List.getElem?_set_self (List.getElem?_eq_some_iff.mp hi).1
  rw [pending_iff]
  constructor
  · rintro ⟨j,d,hj,hd⟩
    rcases getElem?_set_of_some hi hj with ⟨_,rfl⟩ | ⟨hne,hold⟩
    · exact .inl hd
    · exact .inr ⟨j,hne,d,hold,hd⟩
  · rintro (hw | ⟨j,hne,d,hold,hd⟩)
    · exact ⟨i,w',hself,hw⟩
    · exact ⟨j,d,(List.getElem?_set_ne (Ne.symm hne)).trans hold,hd⟩

theorem pending_set_of_ne (hi : ws[i]? = some w) (hw : w.puts ≠ some b) (hw' : w'.puts ≠ some b) :
    pending (ws.set i w') b = pending ws b := by
  have hsame : ws.set i w = ws := by
    obtain ⟨hlt,hget⟩ := List.getElem?_eq_some_iff.mp hi
    rw [← hget,List.set_getElem_self]
  rw [Bool.eq_iff_iff,pending_set hi]
  conv => rhs; rw [← hsame,pending_set hi]
  simp only [hw,hw',false_or]

end Pending

theorem pending_fresh {sys : System BufferPool (PoolWorker σ)}
    (hputters : (putting r idle).Exclusive sys) :
    pending sys.threads sys.shared.handles.length = false := by
  rw [Bool.eq_false_iff]
  intro hpending
  obtain ⟨j,d,hj,hd⟩ := pending_iff.mp hpending
  obtain ⟨h,hget,_⟩ := hputters.locked hj hd
  exact absurd (List.getElem?_eq_some_iff.mp hget).1 (lt_irrefl _)

/-- The pool, with every array that is about to be put back still its handle's, stays valid. -/
theorem valid_settle_step {sys : System BufferPool (PoolWorker σ)} {i : ℕ}
    (hputters : (putting r idle).Exclusive sys)
    (v : (sys.shared.settle (pending sys.threads)).Valid) (hi : sys.threads[i]? = some w)
    (hstep : poolStep r idle sys.shared w a = some (bp',w')) :
    (bp'.settle (pending (sys.threads.set i w'))).Valid := by
  have heffect := effect_of_poolStep hstep
  have hold : ∀ {c}, w.puts ≠ some c → w'.puts ≠ some c →
      pending (sys.threads.set i w') c = pending sys.threads c :=
    fun hw hw' => pending_set_of_ne hi hw hw'
  have hfresh := pending_fresh hputters
  generalize hp : w.puts = p,hp' : w'.puts = p',w.owns = o,w'.owns = o' at heffect
  have hsame : p = none → p' = none →
      pending (sys.threads.set i w') = pending sys.threads := by
    rintro rfl rfl
    funext c
    exact hold (by simp [hp]) (by simp [hp'])
  cases heffect with
  | keep =>
    rw [hsame rfl rfl]
    exact v
  | @get bp' b size pick hget =>
    rw [hsame rfl rfl]
    obtain ⟨taken,_,htaken,hvalid,_⟩ := v.get size pick
    rw [get_settle hfresh,hget] at htaken
    cases htaken
    exact hvalid
  | @grow data =>
    have hgrown : pending sys.threads (sys.shared.alloc data).2.handles.length = false := hfresh
    rw [hsame rfl rfl,settle_newHandle hgrown]
    exact v.alloc_newHandle data _ _
  | @store b off bytes =>
    rw [hsame rfl rfl]
    unfold BufferPool.store
    split
    · exact v
    · exact v.write _ off bytes
  | @swap bp' b o hswap =>
    rw [settle_swap hswap ((pending_set hi).mpr (.inl hp'))]
    · exact v
    · intro c hc
      exact hold (by simp [hp]) (by simp [hp',Ne.symm hc])
  | @put b o o' =>
    obtain ⟨h,hget,hreleased⟩ := hputters.locked hi hp
    have hpending : pending sys.threads b = true := pending_iff.mpr ⟨i,w,hi,hp⟩
    have hdone : pending (sys.threads.set i w') b = false := by
      rw [Bool.eq_false_iff]
      intro hmore
      rcases (pending_set hi).mp hmore with hw' | ⟨j,hne,d,hj,hd⟩
      · cases hp'.symm.trans hw'
      · exact hne (hputters.unique hj hi hd hp)
    rw [settle_putBack hget hreleased hpending hdone]
    · exact v.release b
    · intro c hc
      exact hold (by simp [hp,Ne.symm hc]) (by simp [hp'])
  | drop =>
    rw [hsame rfl rfl]
    exact v.poolDrop _ _

theorem bytes_congr {h' : PoolBuffer} (hb : bp.handles[b]? = some h)
    (hb' : bp'.handles[b]? = some h') (hdata : h'.data = h.data)
    (harray : bp'.arrays[h.data.array]? = bp.arrays[h.data.array]?) :
    bp'.bytes b = bp.bytes b := by
  simp only [bytes,hb,hb',hdata,List.getD_eq_getElem?_getD,harray]

section Isolation

variable (r idle)

/-- What a read has done, against the plain read of the same stream. While it fills its buffer this
is nobody else's, and holds what the plain read has so far; once it has returned, as long as the
buffer is not released. -/
def Follows (bp : BufferPool) : PoolWorker σ → Prop
  | .read start (.get length s) =>
    readFrameLength r idle start = (.ok length,s) ∧ ¬ length > tierLarge
  | .read start (.chunk b off s) => ∃ h, bp.handles[b]? = some h ∧ h.released = false ∧
    readFrameWithTimeout r idle start =
      ((readEach r idle (chunkSizes (h.data.len - off)) s).1.map ((bp.bytes b).take off ++ ·),
        (readEach r idle (chunkSizes (h.data.len - off)) s).2)
  | .read start (.release b e s) => (∃ h, bp.handles[b]? = some h ∧ h.released = false) ∧
    readFrameWithTimeout r idle start = (.error e,s)
  | .read start (.put _ e s) | .read start (.returned (.error e) s) =>
    readFrameWithTimeout r idle start = (.error e,s)
  | .read start (.returned (.ok b) s) => ∃ payload,
    readFrameWithTimeout r idle start = (.ok payload,s) ∧
      ∃ h, bp.handles[b]? = some h ∧ (h.released = false → bp.bytes b = payload)
  | _ => True

variable {r idle}

theorem bytes_store (hb : bp.handles[b]? = some h) (hfits : Fits bp.sizes h) {off : ℕ}
    {bytes : List UInt8} (hoff : off < h.data.len)
    (hlen : bytes.length = min (off + chunkSize) h.data.len - off) :
    ((bp.store b off bytes).bytes b).take (off + chunkSize) = (bp.bytes b).take off ++ bytes := by
  obtain ⟨old,hold,hsize⟩ : ∃ old, bp.arrays[h.data.array]? = some old ∧
      old.length = h.data.cap := by simpa [sizes] using hfits.array
  have hcap := hfits.len
  have hafter : (bp.store b off bytes).bytes b = (overwrite old off bytes).take h.data.len := by
    simp [store,BufferPool.bytes,BufferPool.write,hb,hold]
  have hbefore : bp.bytes b = old.take h.data.len := by
    simp [BufferPool.bytes,hb,hold]
  have hwritten : (overwrite old off bytes).take (off + bytes.length) = old.take off ++ bytes :=
    take_overwrite (by omega) (by omega)
  have hend : min (off + chunkSize) h.data.len = off + bytes.length := by omega
  rw [hafter,hbefore,List.take_take,List.take_take,hend,hwritten,min_eq_left hoff.le]

theorem handles_store (bp : BufferPool) (b off : ℕ) (bytes : List UInt8) :
    (bp.store b off bytes).handles = bp.handles := by
  unfold BufferPool.store
  split <;> rfl

theorem len_eq (hb : bp.handles[b]? = some h) : bp.len b = h.data.len := by
  simp [BufferPool.len,hb]

theorem get_fresh {waiting : ℕ → Bool} (v : (bp.settle waiting).Valid)
    (hfresh : waiting bp.handles.length = false) {size pick : ℕ}
    (hget : bp.get size pick = some (b,bp')) :
    ∃ h, bp'.handles[b]? = some h ∧ h.released = false ∧ h.data.len = size := by
  obtain ⟨rfl,h,hhandles,hlive⟩ := handles_get hget
  have hb : bp'.handles[bp.handles.length]? = some h := by simp [hhandles]
  obtain ⟨taken,data,htaken,_,hsettled,hlen⟩ := v.get size pick
  rw [get_settle hfresh,hget,Option.map_some,Option.some.injEq,Prod.ext_iff] at htaken
  obtain ⟨_,rfl⟩ := htaken
  have hlast := handles_settle bp' waiting bp.handles.length
  have hlength : (bp.settle waiting).handles.length = bp.handles.length := List.length_mapIdx
  rw [hsettled,← hlength,List.getElem?_concat_length,hlength,hb] at hlast
  have hdata : data = h.data := congrArg PoolBuffer.data (Option.some.inj hlast)
  exact ⟨h,hb,hlive,hdata ▸ hlen⟩

theorem follows_readStep {start : σ} {point point' : ReadPoint σ} {waiting : ℕ → Bool}
    (v : (bp.settle waiting).Valid) (hfresh : waiting bp.handles.length = false)
    (hfollows : Follows r idle bp (.read start point))
    (hstep : readStep r idle bp start a point = some (bp',point')) :
    Follows r idle bp' (.read start point') := by
  cases point with
  | length =>
    simp only [readStep] at hstep
    split at hstep
    · rename_i e s hlength
      cases hstep
      simp only [Follows,readFrameWithTimeout,hlength]
    · rename_i length s hlength
      split_ifs at hstep with hlarge
      · split at hstep
        · rename_i e s' hbody
          cases hstep
          simp only [Follows,readFrameWithTimeout,hlength,hbody]
        · rename_i data s' hbody
          cases hstep
          refine ⟨data,?_,⟨(bp.alloc data).1,none,false⟩,?_,?_⟩
          · simp only [readFrameWithTimeout,hlength,hbody]
          · simp [newHandle,alloc]
          · simp [newHandle,alloc,BufferPool.bytes]
      · cases hstep
        exact ⟨hlength,hlarge⟩
  | get length s =>
    obtain ⟨hlength,hsmall⟩ := hfollows
    obtain ⟨⟨b,taken⟩,hget,hpair⟩ := Option.map_eq_some_iff.mp hstep
    cases hpair
    obtain ⟨h,hb,hlive,rfl⟩ := get_fresh v hfresh hget
    refine ⟨h,hb,hlive,?_⟩
    simp only [readFrameWithTimeout_eq,hlength,Nat.sub_zero,List.take_zero]
    cases readEach r idle (chunkSizes h.data.len) s with
    | mk result s' => cases result <;> rfl
  | chunk b off s =>
    obtain ⟨h,hb,hlive,hplain⟩ := hfollows
    simp only [readStep,len_eq hb] at hstep
    split_ifs at hstep with hoff
    · rw [chunkSizes_sub hoff] at hplain
      split at hstep
      · rename_i e herr
        cases hstep
        rw [readEach_cons_error herr] at hplain
        exact ⟨⟨h,by rw [handles_store,hb],hlive⟩,hplain⟩
      · rename_i herr
        cases hstep
        have hlen := (r.readFull_err_eq_none _ _).mp herr
        have hfits : Fits bp.sizes h :=
          v.handle h (List.mem_of_getElem? (handles_settle_of_live hb hlive))
        refine ⟨h,by rw [handles_store,hb],hlive,?_⟩
        rw [hplain,(readEach_cons_ok herr).1,(readEach_cons_ok herr).2,
          bytes_store hb hfits hoff hlen]
        cases (readEach r idle (chunkSizes (h.data.len - (off + chunkSize))) _).1 <;>
          simp [Except.map]
    · cases hstep
      have hbytes : (bp.bytes b).length ≤ off := by
        simp only [BufferPool.bytes,hb,List.length_take]
        omega
      refine ⟨bp.bytes b,?_,h,hb,fun _ => rfl⟩
      rw [hplain,Nat.sub_eq_zero_of_le (Nat.not_lt.mp hoff)]
      simp [chunkSizes,readEach,Except.map,List.take_of_length_le hbytes]
  | release b e s =>
    simp only [readStep] at hstep
    split at hstep <;> cases hstep <;> exact hfollows.2
  | put b e s =>
    cases hstep
    exact hfollows
  | returned result s => cases hstep

theorem follows_poolStep {waiting : ℕ → Bool} (v : (bp.settle waiting).Valid)
    (hfresh : waiting bp.handles.length = false) (hfollows : Follows r idle bp w)
    (hstep : poolStep r idle bp w a = some (bp',w')) : Follows r idle bp' w' := by
  cases w with
  | read start point =>
    obtain ⟨⟨bp₁,point'⟩,hread,hpair⟩ := Option.map_eq_some_iff.mp hstep
    cases hpair
    exact follows_readStep v hfresh hfollows hread
  | release b =>
    simp only [poolStep] at hstep
    split at hstep <;> cases hstep <;> trivial
  | put b =>
    cases hstep
    trivial
  | released b => cases hstep
  | collector =>
    cases hstep
    trivial

theorem release_of_readStep {start : σ} {point : ReadPoint σ} {e : FrameErr} {s : σ}
    (hstep : readStep r idle bp start a point = some (bp',.put b e s)) :
    point = .release b e s := by
  revert hstep
  fun_cases readStep r idle bp start a point with
  | case5 length s =>
    intro hstep
    obtain ⟨taken,_,hpair⟩ := Option.map_eq_some_iff.mp hstep
    cases hpair
  | _ =>
    intro hstep
    cases hstep <;> rfl

theorem owns_or_release_of_poolStep (hstep : poolStep r idle bp w a = some (bp',w'))
    (hputs : w'.puts = some b) : w.owns = some b ∨ w = .release b := by
  cases w with
  | read start point =>
    obtain ⟨⟨bp₁,point'⟩,hread,hpair⟩ := Option.map_eq_some_iff.mp hstep
    cases hpair
    cases point' <;> cases hputs
    rw [release_of_readStep hread]
    exact .inl rfl
  | release c =>
    simp only [poolStep] at hstep
    split at hstep <;> cases hstep <;> cases hputs
    exact .inr rfl
  | put c =>
    cases hstep
    cases hputs
  | released c => cases hstep
  | collector =>
    cases hstep
    cases hputs

theorem poolStep_ne_release (c : ℕ) : poolStep r idle bp w a ≠ some (bp',.release c) := by
  intro hstep
  cases w with
  | read start point =>
    obtain ⟨_,_,hpair⟩ := Option.map_eq_some_iff.mp hstep
    cases hpair
  | release b =>
    simp only [poolStep] at hstep
    split at hstep <;> cases hstep
  | _ => cases hstep

theorem live_of_poolStep (hfollows : Follows r idle bp w)
    (hstep : poolStep r idle bp w a = some (bp',w')) (howns : w.owns = some b)
    (hputs : w.puts = none) : ∃ h, bp.handles[b]? = some h ∧ h.released = false := by
  cases w with
  | read start point =>
    cases point with
    | chunk c off s =>
      cases howns
      obtain ⟨h,hb,hlive,_⟩ := hfollows
      exact ⟨h,hb,hlive⟩
    | release c e s =>
      cases howns
      exact hfollows.1
    | put c e s => cases hputs
    | returned result s => cases hstep
    | length => cases howns
    | get length s => cases howns
  | release c => cases howns
  | put c => cases howns
  | released c => cases howns
  | collector => cases howns

variable (r idle)

structure Isolated (sys : System BufferPool (PoolWorker σ)) : Prop where
  putters : (putting r idle).Exclusive sys
  owners : (owning r idle).Exclusive sys
  valid : (sys.shared.settle (pending sys.threads)).Valid
  follows : ∀ d ∈ sys.threads, Follows r idle sys.shared d
  releases : ∀ b, .release b ∈ sys.threads → ∃ start s,
    .read start (.returned (.ok b) s) ∈ sys.threads

variable {r idle}

namespace Isolated

variable {sys : System BufferPool (PoolWorker σ)} (v : Isolated r idle sys) {i j : ℕ}
  {d : PoolWorker σ}
include v

/-- What a step of another worker leaves of a read's buffer: all of it, unless it releases it. -/
theorem frame (hi : sys.threads[i]? = some w) (hj : sys.threads[j]? = some d) (hji : j ≠ i)
    (hstep : poolStep r idle sys.shared w a = some (bp',w')) (hd : d.owns = some b)
    (hb : sys.shared.handles[b]? = some h) (hlive : h.released = false) :
    ∃ h', bp'.handles[b]? = some h' ∧ h'.data = h.data ∧ bp'.bytes b = sys.shared.bytes b ∧
      (h'.released = true → w = .release b) := by
  have heffect := effect_of_poolStep hstep
  have hother : w.owns ≠ some b := fun hw => hji (v.owners.unique hj hi hd hw)
  have hsettled : (sys.shared.settle (pending sys.threads)).handles[b]? = some h :=
    handles_settle_of_live hb hlive
  have harray := (v.valid.handle h (List.mem_of_getElem? hsettled)).array
  have hlt : h.data.array < sys.shared.arrays.length := by
    have hsizes := (List.getElem?_eq_some_iff.mp harray).1
    rwa [sizes,List.length_map] at hsizes
  obtain ⟨h',hb',hdata,_,hclaimed⟩ := heffect.handle hb
  refine ⟨h',hb',hdata,bytes_congr hb hb' hdata ?_,?_⟩
  · rcases heffect.array hlt with hsame | ⟨c,k,hw,hp,_,hc,hsame⟩
    · exact hsame
    · obtain ⟨k',hc',hklive⟩ := live_of_poolStep (v.follows w (List.mem_of_getElem? hi)) hstep hw hp
      obtain rfl := Option.some.inj (hc.symm.trans hc')
      have hcb : c ≠ b := by
        rintro rfl
        exact hother hw
      have hne := v.valid.array_ne (handles_settle_of_live hc hklive) hsettled hcb hklive hlive
      exact absurd hsame hne
  · intro hreleased
    rcases hclaimed hreleased with hold | hputs
    · rw [hlive] at hold
      cases hold
    · exact (owns_or_release_of_poolStep hstep hputs).resolve_left hother

theorem not_release (hi : sys.threads[i]? = some w) (hj : sys.threads[j]? = some d)
    (hd : d.owns = some b) (hreading : ∀ start s, d ≠ .read start (.returned (.ok b) s)) :
    w ≠ .release b := by
  rintro rfl
  obtain ⟨start,s,hreturned⟩ := v.releases b (List.mem_of_getElem? hi)
  obtain ⟨k,hk⟩ := List.mem_iff_getElem?.mp hreturned
  obtain rfl := v.owners.unique hk hj rfl hd
  exact hreading start s (Option.some.inj (hj.symm.trans hk))

theorem follows_other (hi : sys.threads[i]? = some w) (hj : sys.threads[j]? = some d) (hji : j ≠ i)
    (hstep : poolStep r idle sys.shared w a = some (bp',w')) : Follows r idle bp' d := by
  have hfollows := v.follows d (List.mem_of_getElem? hj)
  cases d with
  | read start point =>
    cases point with
    | chunk b off s =>
      obtain ⟨h,hb,hlive,hplain⟩ := hfollows
      obtain ⟨h',hb',hdata,hbytes,hrelease⟩ := v.frame hi hj hji hstep rfl hb hlive
      have hkept := fun hreleased => v.not_release hi hj rfl (by simp) (hrelease hreleased)
      refine ⟨h',hb',Bool.eq_false_iff.mpr hkept,?_⟩
      rw [hdata,hbytes]
      exact hplain
    | release b e s =>
      obtain ⟨⟨h,hb,hlive⟩,hplain⟩ := hfollows
      obtain ⟨h',hb',_,_,hrelease⟩ := v.frame hi hj hji hstep rfl hb hlive
      have hkept := fun hreleased => v.not_release hi hj rfl (by simp) (hrelease hreleased)
      exact ⟨⟨h',hb',Bool.eq_false_iff.mpr hkept⟩,hplain⟩
    | returned result s =>
      cases result with
      | error e => exact hfollows
      | ok b =>
        obtain ⟨payload,hplain,h,hb,hpayload⟩ := hfollows
        obtain ⟨h',hb',_,hkeeps,_⟩ := (effect_of_poolStep hstep).handle hb
        refine ⟨payload,hplain,h',hb',fun hlive' => ?_⟩
        have hlive : h.released = false := by
          rw [Bool.eq_false_iff]
          intro hreleased
          rw [hkeeps hreleased] at hlive'
          cases hlive'
        obtain ⟨_,_,_,hbytes,_⟩ := v.frame hi hj hji hstep rfl hb hlive
        rw [hbytes]
        exact hpayload hlive
    | length => trivial
    | get length s => exact hfollows
    | put b e s => exact hfollows
  | release b => trivial
  | put b => trivial
  | released b => trivial
  | collector => trivial

theorem spawn (hputs : w.puts = none) (howns : w.owns = none)
    (hfollows : Follows r idle sys.shared w)
    (hrelease : ∀ b, w = .release b → ∃ start s, .read start (.returned (.ok b) s) ∈ sys.threads) :
    Isolated r idle { sys with threads := sys.threads ++ [w] } := by
  have hpending : pending (sys.threads ++ [w]) = pending sys.threads := by
    funext b
    simp [pending,hputs]
  refine ⟨v.putters.spawn hputs,v.owners.spawn howns,?_,?_,?_⟩
  · rw [hpending]
    exact v.valid
  · intro d hd
    rcases List.mem_append.mp hd with hold | hnew
    · exact v.follows d hold
    · rw [List.mem_singleton.mp hnew]
      exact hfollows
  · intro b hb
    have hreturned : ∃ start s, .read start (.returned (.ok b) s) ∈ sys.threads := by
      rcases List.mem_append.mp hb with hold | hnew
      · exact v.releases b hold
      · exact hrelease b (List.mem_singleton.mp hnew).symm
    obtain ⟨start,s,hmem⟩ := hreturned
    exact ⟨start,s,List.mem_append_left _ hmem⟩

theorem advance (hi : sys.threads[i]? = some w)
    (hstep : poolStep r idle sys.shared w a = some (bp',w')) :
    Isolated r idle ⟨bp',sys.threads.set i w'⟩ := by
  refine ⟨v.putters.advance hi hstep,v.owners.advance hi hstep,
    valid_settle_step v.putters v.valid hi hstep,?_,?_⟩
  · intro d hd
    obtain ⟨j,hj⟩ := List.mem_iff_getElem?.mp hd
    rcases getElem?_set_of_some hi hj with ⟨_,rfl⟩ | ⟨hji,hold⟩
    · exact follows_poolStep v.valid (pending_fresh v.putters)
        (v.follows w (List.mem_of_getElem? hi)) hstep
    · exact v.follows_other hi hold hji hstep
  · intro b hb
    have hold : .release b ∈ sys.threads := by
      rcases List.mem_or_eq_of_mem_set hb with hold | rfl
      · exact hold
      · exact absurd hstep (poolStep_ne_release b)
    obtain ⟨start,s,hreturned⟩ := v.releases b hold
    obtain ⟨k,hk⟩ := List.mem_iff_getElem?.mp hreturned
    have hki : i ≠ k := by
      rintro rfl
      obtain rfl := Option.some.inj (hi.symm.trans hk)
      cases hstep
    exact ⟨start,s,List.mem_of_getElem? ((List.getElem?_set_ne hki).trans hk)⟩

end Isolated

/-- Reads and collectors start at any time, a release once a read has returned the buffer. -/
def Disciplined (sys : System BufferPool (PoolWorker σ)) : Event (PoolWorker σ) Pick → Prop
  | .spawn (.read _ .length) | .spawn .collector | .advance _ _ => True
  | .spawn (.release b) => ∃ start s, .read start (.returned (.ok b) s) ∈ sys.threads
  | .spawn _ => False

theorem Isolated.step {sys : System BufferPool (PoolWorker σ)} (v : Isolated r idle sys)
    {e : Event (PoolWorker σ) Pick} (he : Disciplined sys e) :
    Isolated r idle (step (poolStep r idle) sys e) := by
  rcases step_cases (poolStep r idle) sys e with hsame | ⟨w,rfl,hstep⟩ |
    ⟨i,a,w,bp',w',rfl,hi,hprog,hstep⟩
  · rw [hsame]
    exact v
  · rw [hstep]
    cases w with
    | read start point =>
      cases point with
      | length => exact v.spawn rfl rfl trivial (by simp)
      | _ => exact he.elim
    | release b =>
      refine v.spawn rfl rfl trivial fun c hc => ?_
      cases hc
      exact he
    | collector => exact v.spawn rfl rfl trivial (by simp)
    | put b => exact he.elim
    | released b => exact he.elim
  · rw [hstep]
    exact v.advance hi hprog

theorem isolated_new : Isolated r idle ⟨newBufferPool,[]⟩ := by
  have hnone : ∀ {i : ℕ} {d : PoolWorker σ}, ([] : List (PoolWorker σ))[i]? ≠ some d := by simp
  refine ⟨⟨?_,?_⟩,⟨?_,?_⟩,?_,?_,?_⟩
  · intro i d b hi
    exact absurd hi hnone
  · intro i j d d' b hi
    exact absurd hi hnone
  · intro i d b hi
    exact absurd hi hnone
  · intro i j d d' b hi
    exact absurd hi hnone
  · exact valid_newBufferPool
  · intro d hd
    cases hd
  · intro b hb
    cases hb

theorem Isolated.readStep_isSome {sys : System BufferPool (PoolWorker σ)} (v : Isolated r idle sys)
    (start : σ) (a : Pick) {point : ReadPoint σ} (hpoint : ∀ result s, point ≠ .returned result s) :
    (readStep r idle sys.shared start a point).isSome := by
  fun_cases readStep r idle sys.shared start a point with
  | case5 length s =>
    obtain ⟨taken,_,htaken,_⟩ := v.valid.get length a.item
    rw [get_settle (pending_fresh v.putters)] at htaken
    obtain ⟨next,hnext,_⟩ := Option.map_eq_some_iff.mp htaken
    simp [hnext]
  | case12 result s => exact absurd rfl (hpoint result s)
  | _ => rfl

/-- Reads beside each other. However many reads, releases and collections of pooled items are
interleaved, as long as only buffers are released that a read has returned: no read gets stuck or
panics; one that returns has what the plain read of its stream has, an error or a payload, and the
payload stays in its buffer until this is released; and no array is in the pools twice, or there and
with an unreleased handle, or with two of them. -/
theorem pooled_reads_isolated {es : List (Event (PoolWorker σ) Pick)}
    (hes : EachStep (poolStep r idle) Disciplined ⟨newBufferPool,[]⟩ es) :
    let last := run (poolStep r idle) ⟨newBufferPool,[]⟩ es
    (∀ start point a, .read start point ∈ last.threads →
        (∀ result s, point ≠ .returned result s) →
          (readStep r idle last.shared start a point).isSome) ∧
      (∀ start e s, .read start (.returned (.error e) s) ∈ last.threads →
        readFrameWithTimeout r idle start = (.error e,s)) ∧
      (∀ start b s, .read start (.returned (.ok b) s) ∈ last.threads →
        ∃ payload, readFrameWithTimeout r idle start = (.ok payload,s) ∧
          ∃ h, last.shared.handles[b]? = some h ∧
            (h.released = false → last.shared.bytes b = payload)) ∧
      (∀ tier, ∀ slice ∈ last.shared.pools tier, slice.len = tier.size ∧ slice.cap = tier.size) ∧
      (pooled last.shared.pools).Nodup ∧
      (∀ (b : ℕ) h, last.shared.handles[b]? = some h → h.released = false →
        h.data.array ∉ pooled last.shared.pools) ∧
      ∀ (b c : ℕ) h k, last.shared.handles[b]? = some h → last.shared.handles[c]? = some k → b ≠ c →
        h.released = false → k.released = false → h.data.array ≠ k.data.array := by
  intro last
  have v : Isolated r idle last :=
    invariant_of_eachStep (fun _ _ v he => v.step he) isolated_new hes
  refine ⟨fun start point a _ hpoint => v.readStep_isSome start a hpoint,
    fun start e s hmem => v.follows _ hmem,fun start b s hmem => v.follows _ hmem,?_,
    v.valid.pooled_nodup,?_,?_⟩
  · intro tier slice hslice
    exact ⟨(v.valid.pool tier slice hslice).len,(v.valid.pool tier slice hslice).cap⟩
  · intro b h hb hlive
    exact v.valid.not_mem_pooled (handles_settle_of_live hb hlive) hlive
  · intro b c h k hb hc hbc hlive hlive'
    exact v.valid.array_ne (handles_settle_of_live hb hlive) (handles_settle_of_live hc hlive') hbc
      hlive hlive'

def byteFrame (v : UInt8) : Fragments := ⟨[[0,0,0,1],[v]],.eof,false⟩

def alternating : List (Event (PoolWorker Fragments) Pick) :=
  [.spawn (.read (byteFrame 7) .length),.spawn (.read (byteFrame 9) .length)] ++
    (List.replicate 4 [.advance 0 ⟨0,.small⟩,.advance 1 ⟨0,.small⟩]).flatten

theorem readFull_piece {piece : List UInt8} (hne : piece ≠ []) (rest : List (List UInt8)) :
    Fragments.reader.readFull piece.length ⟨piece :: rest,.eof,false⟩ =
      ⟨piece,none,⟨rest,.eof,false⟩⟩ := by
  rw [Reader.readFull,Reader.readAtLeast]
  simp only [Fragments.reader,Fragments.read]
  simp only [List.length_eq_zero_iff,hne,dite_false,le_refl,if_true,Bool.false_eq_true,false_and,
    if_false,Nat.sub_self]
  rw [Reader.readAtLeast]
  simp only [dite_true]
  split <;> rfl

theorem readFrameLength_byteFrame (v : UInt8) :
    readFrameLength Fragments.reader 0 (byteFrame v) = (.ok 1,⟨[[v]],.eof,false⟩) := by
  have hfirst : Fragments.reader.readFull lengthPrefixSize (byteFrame v) =
      ⟨[0,0,0,1],none,⟨[[v]],.eof,false⟩⟩ :=
    readFull_piece (List.cons_ne_nil 0 [0,0,1]) [[v]]
  simp [readFrameLength,armRead_zero,hfirst,uint32,maxFrameSize]

theorem run_alternating :
    let last := run (poolStep Fragments.reader 0) ⟨newBufferPool,[]⟩ alternating
    last.threads = [.read (byteFrame 7) (.returned (.ok 0) ⟨[],.eof,false⟩),
        .read (byteFrame 9) (.returned (.ok 1) ⟨[],.eof,false⟩)] ∧
      last.shared.handles = [⟨⟨0,1,tierSmall⟩,some .small,false⟩,
        ⟨⟨1,1,tierSmall⟩,some .small,false⟩] := by
  have hbyte : ∀ v, Fragments.reader.readFull 1 ⟨[[v]],.eof,false⟩ =
      ⟨[v],none,⟨[],.eof,false⟩⟩ := fun v => readFull_piece (List.cons_ne_nil v []) []
  have hlarge : tierLarge ≠ 0 := by decide
  have hsmall : 1 ≤ tierSmall := by decide
  have hchunk : chunkSize ≠ 0 := by decide
  constructor <;>
    simp [alternating,Interleaving.run,Interleaving.step,poolStep,readStep,
      readFrameLength_byteFrame,newBufferPool,BufferPool.get,tierFor,poolGet,make,alloc,
      Slice.reslice,newHandle,armRead_zero,hbyte,BufferPool.len,BufferPool.store,write,Tier.size,
      hlarge,hsmall,hchunk,Nat.one_le_iff_ne_zero]

theorem pooled_reads_isolated_alternating :
    let last := run (poolStep Fragments.reader 0) ⟨newBufferPool,[]⟩ alternating
    (∃ s, .read (byteFrame 7) (.returned (.ok 0) s) ∈ last.threads) ∧
      (∃ s, .read (byteFrame 9) (.returned (.ok 1) s) ∈ last.threads) ∧
      last.shared.bytes 0 = [7] ∧ last.shared.bytes 1 = [9] := by
  intro last
  obtain ⟨hthreads,hhandles⟩ := run_alternating
  have hes : EachStep (poolStep Fragments.reader 0) Disciplined ⟨newBufferPool,[]⟩ alternating :=
    ⟨trivial,trivial,trivial,trivial,trivial,trivial,trivial,trivial,trivial,trivial,trivial⟩
  obtain ⟨_,_,hreturned,_⟩ := pooled_reads_isolated hes
  have hplain : ∀ v, (readFrameWithTimeout Fragments.reader 0 (byteFrame v)).1 = .ok [v] := by
    intro v
    have hlength : putUint32 1 = [0,0,0,1] := by decide
    have hframed : Framed [v] [] (Fragments.carries.pending (byteFrame v)) := by
      refine ⟨?_,by simp,by simp [maxFrameSize]⟩
      rw [List.length_singleton,hlength]
      rfl
    exact (readFrame_of_framed Fragments.carries hframed).1
  have hbytes : ∀ {v : UInt8} {b : ℕ} {s : Fragments} {h : PoolBuffer},
      .read (byteFrame v) (.returned (.ok b) s) ∈ last.threads →
        last.shared.handles[b]? = some h → h.released = false → last.shared.bytes b = [v] := by
    intro v b s h hmem hb hlive
    obtain ⟨payload,hpayload,k,hk,hkept⟩ := hreturned _ b s hmem
    obtain rfl := Option.some.inj (hb.symm.trans hk)
    have hsame := (hplain v).symm.trans (congrArg Prod.fst hpayload)
    rw [hkept hlive,Except.ok.inj hsame]
  have hfirst : .read (byteFrame 7) (.returned (.ok 0) ⟨[],.eof,false⟩) ∈ last.threads := by
    rw [hthreads]
    exact .head _
  have hsecond : .read (byteFrame 9) (.returned (.ok 1) ⟨[],.eof,false⟩) ∈ last.threads := by
    rw [hthreads]
    exact .tail _ (.head _)
  have hlist : ∀ {b : ℕ}, last.shared.handles[b]? = _ := fun {b} => congrArg (·[b]?) hhandles
  exact ⟨⟨_,hfirst⟩,⟨_,hsecond⟩,hbytes hfirst (hlist.trans rfl) rfl,
    hbytes hsecond (hlist.trans rfl) rfl⟩

end Isolation
end P2PForge.Codec
