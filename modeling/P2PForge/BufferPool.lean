import P2PForge.Frame

/-! The tiered buffer pool.
A slice is the address of its backing array, a length and a capacity; every slice here starts
at the first byte of its array. A `sync.Pool` is a bag: it may lose what was put into it, and
it makes a fresh slice of its tier's size when it has nothing to give. What the pools hold
and what unreleased handles hold are together the owned arrays, each of them owned once. -/
namespace P2PForge.Codec

def tierSmall : ℕ := 4*1024
def tierMedium : ℕ := 64*1024
def tierLarge : ℕ := 1*1024*1024

inductive Tier
  | small | medium | large
  deriving DecidableEq

def Tier.size : Tier → ℕ
  | .small => tierSmall
  | .medium => tierMedium
  | .large => tierLarge

structure Slice where
  array : ℕ
  len : ℕ
  cap : ℕ
  deriving DecidableEq

/-- `b[:n]`, which panics beyond the capacity. -/
def Slice.reslice (b : Slice) (n : ℕ) : Option Slice :=
  if n ≤ b.cap then some { b with len := n } else none

/-- A `PoolBuffer`; its tier is absent where the source has -1. -/
structure PoolBuffer where
  data : Slice
  tier : Option Tier
  released : Bool
  deriving DecidableEq

/-- A `BufferPool` with the memory around it: the backing arrays by address, and every
`PoolBuffer` ever made by its position. -/
structure BufferPool where
  arrays : List (List UInt8)
  handles : List PoolBuffer
  pools : Tier → List Slice
  hits : ℕ
  misses : ℕ

namespace BufferPool

def newBufferPool : BufferPool := ⟨[],[],fun _ => [],0,0⟩

def alloc (bp : BufferPool) (content : List UInt8) : Slice × BufferPool :=
  (⟨bp.arrays.length,content.length,content.length⟩,{ bp with arrays := bp.arrays ++ [content] })

/-- `make([]byte, n)`. -/
def make (bp : BufferPool) (n : ℕ) : Slice × BufferPool := bp.alloc (List.replicate n 0)

def poolDrop (bp : BufferPool) (tier : Tier) (pick : ℕ) : BufferPool :=
  { bp with pools := Function.update bp.pools tier ((bp.pools tier).eraseIdx pick) }

/-- `sync.Pool.Get` on a tier's pool: the item at `pick`, and a fresh slice if there is none. -/
def poolGet (bp : BufferPool) (tier : Tier) (pick : ℕ) : Slice × BufferPool :=
  match (bp.pools tier)[pick]? with
  | some b => (b,bp.poolDrop tier pick)
  | none => bp.make tier.size

def poolPut (bp : BufferPool) (tier : Tier) (b : Slice) : BufferPool :=
  { bp with pools := Function.update bp.pools tier (b :: bp.pools tier) }

/-- The tier whose pool serves a request, by the cases of `Get`. -/
def tierFor (size : ℕ) : Option Tier :=
  if size ≤ tierSmall then some .small
  else if size ≤ tierMedium then some .medium
  else if size ≤ tierLarge then some .large
  else none

def newHandle (bp : BufferPool) (data : Slice) (tier : Option Tier) : ℕ × BufferPool :=
  (bp.handles.length,{ bp with handles := bp.handles ++ [⟨data,tier,false⟩] })

/-- `BufferPool.Get`; nothing is returned where the reslice panics. -/
def get (bp : BufferPool) (size pick : ℕ) : Option (ℕ × BufferPool) :=
  match tierFor size with
  | some tier =>
    let (b,bp) := bp.poolGet tier pick
    match b.reslice size with
    | none => none
    | some data => some ({ bp with hits := bp.hits + 1 }.newHandle data (some tier))
  | none =>
    let (data,bp) := bp.make size
    some ({ bp with misses := bp.misses + 1 }.newHandle data none)

def markReleased (bp : BufferPool) (i : ℕ) (h : PoolBuffer) : BufferPool :=
  { bp with handles := bp.handles.set i { h with released := true } }

/-- `PoolBuffer.Release` on the handle at position `i`. -/
def release (bp : BufferPool) (i : ℕ) : BufferPool :=
  match bp.handles[i]? with
  | none => bp
  | some h =>
    if h.released then bp
    else
      match h.tier with
      | some tier => (bp.markReleased i h).poolPut tier { h.data with len := h.data.cap }
      | none => bp.markReleased i h

/-- `copy(dst[off:], bytes)`. -/
def overwrite (dst : List UInt8) (off : ℕ) (bytes : List UInt8) : List UInt8 :=
  dst.take off ++ bytes.take (dst.length - off) ++ dst.drop (off + bytes.length)

def write (bp : BufferPool) (array off : ℕ) (bytes : List UInt8) : BufferPool :=
  { bp with arrays := bp.arrays.modify array (overwrite · off bytes) }

def bytes (bp : BufferPool) (i : ℕ) : List UInt8 :=
  match bp.handles[i]? with
  | none => []
  | some h => (bp.arrays.getD h.data.array []).take h.data.len

def fill (bp : BufferPool) (i : ℕ) (content : List UInt8) : BufferPool :=
  match bp.handles[i]? with
  | none => bp
  | some h => bp.write h.data.array 0 content

def len (bp : BufferPool) (i : ℕ) : ℕ :=
  match bp.handles[i]? with
  | none => 0
  | some h => h.data.len

@[simp] theorem length_overwrite (dst : List UInt8) (off : ℕ) (bytes : List UInt8) :
    (overwrite dst off bytes).length = dst.length := by
  simp only [overwrite,List.length_append,List.length_take,List.length_drop]
  omega

theorem tierFor_eq_some {size : ℕ} {tier : Tier} (h : tierFor size = some tier) :
    size ≤ tier.size := by
  unfold tierFor at h
  split_ifs at h with hs hm hl <;> cases h <;> assumption

example : tierFor 4096 = some .small ∧ tierFor 4097 = some .medium := by decide

def sizes (bp : BufferPool) : List ℕ := bp.arrays.map List.length

def pooled (pools : Tier → List Slice) : List ℕ :=
  [Tier.small,.medium,.large].flatMap fun tier => (pools tier).map Slice.array

def unreleased (handles : List PoolBuffer) : List PoolBuffer :=
  handles.filter fun h => !h.released

def owned (bp : BufferPool) : List ℕ :=
  pooled bp.pools ++ (unreleased bp.handles).map fun h => h.data.array

theorem released_release {bp : BufferPool} {i : ℕ} {h : PoolBuffer}
    (hi : (bp.release i).handles[i]? = some h) : h.released = true := by
  have hmark : ∀ {buf}, bp.handles[i]? = some buf → (bp.markReleased i buf).handles[i]? = some h →
      h.released = true := by
    intro buf hbuf hset
    obtain ⟨hlt,_⟩ := List.getElem?_eq_some_iff.mp hbuf
    rw [markReleased,List.getElem?_set_self hlt] at hset
    cases hset
    rfl
  revert hi
  fun_cases release bp i with
  | case1 hnone =>
    intro hi
    rw [hnone] at hi
    cases hi
  | case2 buf hbuf hreleased =>
    intro hi
    rw [hbuf] at hi
    cases hi
    exact hreleased
  | case3 buf hbuf _ tier _ => exact hmark hbuf
  | case4 buf hbuf _ _ => exact hmark hbuf

theorem release_release (bp : BufferPool) (i : ℕ) :
    (bp.release i).release i = bp.release i := by
  generalize hreleased : bp.release i = bp'
  rw [release]
  cases hi : bp'.handles[i]? with
  | none => rfl
  | some h =>
    rw [← hreleased] at hi
    simp only [released_release hi,if_true]

theorem length_handles_release (bp : BufferPool) (i : ℕ) :
    (bp.release i).handles.length = bp.handles.length := by
  fun_cases release bp i with
  | case1 => rfl
  | case2 => rfl
  | case3 buf => exact List.length_set
  | case4 buf => exact List.length_set

theorem handles_release_of_ne (bp : BufferPool) {i j : ℕ} (hij : i ≠ j) :
    (bp.release i).handles[j]? = bp.handles[j]? := by
  fun_cases release bp i with
  | case1 => rfl
  | case2 => rfl
  | case3 buf => exact List.getElem?_set_ne hij
  | case4 buf => exact List.getElem?_set_ne hij

theorem handles_get {bp bp' : BufferPool} {size pick i : ℕ} (h : bp.get size pick = some (i,bp')) :
    i = bp.handles.length ∧ ∃ buf, bp'.handles = bp.handles ++ [buf] ∧ buf.released = false := by
  have hpool : ∀ tier, (bp.poolGet tier pick).2.handles = bp.handles := by
    intro tier
    unfold poolGet
    split <;> rfl
  revert h
  fun_cases get bp size pick with
  | case1 tier htier b taken hpick hdata => exact nofun
  | case2 tier htier b taken hpick data hdata =>
    have hhandles := hpool tier
    rw [hpick] at hhandles
    rintro ⟨⟩
    exact ⟨congrArg List.length hhandles,_,congrArg (· ++ _) hhandles,rfl⟩
  | case3 htier data made hmake =>
    cases hmake
    rintro ⟨⟩
    exact ⟨rfl,_,rfl,rfl⟩

/-- A slice that spans an array of its tier's size. -/
structure Full (sizes : List ℕ) (tier : Tier) (b : Slice) : Prop where
  len : b.len = tier.size
  cap : b.cap = tier.size
  array : sizes[b.array]? = some tier.size

/-- A handle whose slice lies within its array, which has the size of the handle's tier. -/
structure Fits (sizes : List ℕ) (h : PoolBuffer) : Prop where
  len : h.data.len ≤ h.data.cap
  array : sizes[h.data.array]? = some h.data.cap
  tier : ∀ tier, h.tier = some tier → h.data.cap = tier.size

/-- Pooled slices are full, handles lie within their arrays, and no array is owned twice. -/
structure Valid (bp : BufferPool) : Prop where
  pool : ∀ tier, ∀ b ∈ bp.pools tier, Full bp.sizes tier b
  handle : ∀ h ∈ bp.handles, Fits bp.sizes h
  nodup : bp.owned.Nodup

theorem valid_newBufferPool : newBufferPool.Valid := by
  constructor <;> simp [newBufferPool,owned,pooled,unreleased]

theorem pooled_update {pools : Tier → List Slice} {tier : Tier} {l : List Slice} {b : Slice}
    (h : l.Perm (b :: pools tier)) :
    (pooled (Function.update pools tier l)).Perm (b.array :: pooled pools) := by
  rw [List.perm_iff_count]
  intro a
  have hcount := (h.map Slice.array).count_eq a
  rw [List.map_cons,List.count_cons] at hcount
  cases tier <;>
    simp only [pooled,List.flatMap_cons,List.flatMap_nil,List.count_append,List.count_cons,
      Function.update_self,ne_eq,reduceCtorEq,not_false_eq_true,Function.update_of_ne] <;>
    omega

theorem owned_poolPut (bp : BufferPool) (tier : Tier) (b : Slice) :
    (bp.poolPut tier b).owned.Perm (b.array :: bp.owned) :=
  (pooled_update (List.Perm.refl _)).append_right _

theorem owned_poolDrop {bp : BufferPool} {tier : Tier} {pick : ℕ} {b : Slice}
    (h : (bp.pools tier)[pick]? = some b) :
    bp.owned.Perm (b.array :: (bp.poolDrop tier pick).owned) := by
  obtain ⟨hlt,rfl⟩ := List.getElem?_eq_some_iff.mp h
  -- putting the item back gives the old pools
  have hback : bp.pools =
      Function.update (bp.poolDrop tier pick).pools tier (bp.pools tier) := by
    simp [poolDrop]
  have hperm : (bp.pools tier).Perm
      ((bp.pools tier)[pick] :: (bp.poolDrop tier pick).pools tier) := by
    simp only [poolDrop,Function.update_self]
    exact (List.getElem_cons_eraseIdx_perm hlt).symm
  have hpooled := pooled_update hperm
  rw [← hback] at hpooled
  exact hpooled.append_right _

theorem owned_newHandle (bp : BufferPool) (data : Slice) (tier : Option Tier) :
    (bp.newHandle data tier).2.owned.Perm (data.array :: bp.owned) := by
  simp only [newHandle,owned,unreleased,List.filter_append,List.map_append,← List.append_assoc]
  exact List.perm_append_singleton _ _

theorem owned_markReleased {bp : BufferPool} {i : ℕ} {h : PoolBuffer}
    (hi : bp.handles[i]? = some h) (hlive : h.released = false) :
    bp.owned.Perm (h.data.array :: (bp.markReleased i h).owned) := by
  obtain ⟨hlt,hget⟩ := List.getElem?_eq_some_iff.mp hi
  have hsplit : bp.handles = bp.handles.take i ++ h :: bp.handles.drop (i + 1) := by
    rw [← hget,List.getElem_cons_drop,List.take_append_drop]
  have hset : (bp.markReleased i h).handles =
      bp.handles.take i ++ { h with released := true } :: bp.handles.drop (i + 1) := by
    simp [markReleased,List.set_eq_take_append_cons_drop,hlt]
  have hpools : (bp.markReleased i h).pools = bp.pools := rfl
  rw [owned,owned,hpools,hset]
  conv => lhs; rw [hsplit]
  simp only [unreleased,List.filter_append,List.filter_cons,hlive,Bool.not_false,Bool.not_true,
    List.map_append,if_true,Bool.false_eq_true,if_false,List.map_cons]
  rw [← List.append_assoc,← List.append_assoc]
  exact List.perm_middle

theorem mem_owned_lt {bp : BufferPool} (v : bp.Valid) {a : ℕ} (h : a ∈ bp.owned) :
    a < bp.arrays.length := by
  have hsize : ∃ n, bp.sizes[a]? = some n := by
    rcases List.mem_append.mp h with hpool | hhandle
    · obtain ⟨tier,_,hmem⟩ := List.mem_flatMap.mp hpool
      obtain ⟨b,hb,rfl⟩ := List.mem_map.mp hmem
      exact ⟨tier.size,(v.pool tier b hb).array⟩
    · obtain ⟨buf,hmem,rfl⟩ := List.mem_map.mp hhandle
      exact ⟨buf.data.cap,(v.handle buf (List.mem_of_mem_filter hmem)).array⟩
  obtain ⟨n,hn⟩ := hsize
  obtain ⟨hlt,_⟩ := List.getElem?_eq_some_iff.mp hn
  simpa [sizes] using hlt

namespace Valid

variable {bp : BufferPool} (v : bp.Valid)
include v

theorem count (hits misses : ℕ) : { bp with hits := hits,misses := misses }.Valid :=
  ⟨v.pool,v.handle,v.nodup⟩

theorem of_arrays {arrays : List (List UInt8)}
    (h : ∀ {a n : ℕ}, bp.sizes[a]? = some n → (arrays.map List.length)[a]? = some n) :
    { bp with arrays := arrays }.Valid :=
  ⟨fun tier b hb => ⟨(v.pool tier b hb).len,(v.pool tier b hb).cap,h (v.pool tier b hb).array⟩,
    fun buf hbuf =>
      ⟨(v.handle buf hbuf).len,h (v.handle buf hbuf).array,(v.handle buf hbuf).tier⟩,
    v.nodup⟩

theorem alloc (content : List UInt8) : (bp.alloc content).2.Valid := by
  apply v.of_arrays
  intro a k h
  rw [sizes] at h
  obtain ⟨hlt,_⟩ := List.getElem?_eq_some_iff.mp h
  rw [List.map_append,List.getElem?_append_left hlt]
  exact h

theorem alloc_array_not_mem (content : List UInt8) :
    (bp.alloc content).1.array ∉ (bp.alloc content).2.owned := by
  intro hmem
  exact (mem_owned_lt v hmem).ne rfl

theorem write (array off : ℕ) (bytes : List UInt8) : (bp.write array off bytes).Valid := by
  apply v.of_arrays
  intro a k h
  have hsizes : (bp.arrays.modify array (overwrite · off bytes)).map List.length = bp.sizes := by
    rw [sizes]
    apply List.ext_getElem?
    intro i
    simp only [List.getElem?_map,List.getElem?_modify]
    cases bp.arrays[i]? with
    | none => rfl
    | some old => by_cases hi : array = i <;> simp [hi]
  rw [hsizes]
  exact h

theorem poolDrop (tier : Tier) (pick : ℕ) : (bp.poolDrop tier pick).Valid := by
  have hsub : ∀ t, (bp.poolDrop tier pick).pools t ⊆ bp.pools t := by
    intro t b hb
    by_cases ht : t = tier
    · subst ht
      simp only [BufferPool.poolDrop,Function.update_self] at hb
      exact List.mem_of_mem_eraseIdx hb
    · simpa only [BufferPool.poolDrop,Function.update_of_ne ht] using hb
  have hnodup : (bp.poolDrop tier pick).owned.Nodup := by
    cases hpick : (bp.pools tier)[pick]? with
    | none =>
      have hsame : bp.poolDrop tier pick = bp := by
        simp [BufferPool.poolDrop,List.eraseIdx_of_length_le (List.getElem?_eq_none_iff.mp hpick)]
      rw [hsame]
      exact v.nodup
    | some b => exact ((owned_poolDrop hpick).nodup_iff.mp v.nodup).of_cons
  exact ⟨fun t b hb => v.pool t b (hsub t hb),v.handle,hnodup⟩

theorem newHandle {data : Slice} {tier : Option Tier} (hfits : Fits bp.sizes ⟨data,tier,false⟩)
    (hfree : data.array ∉ bp.owned) : (bp.newHandle data tier).2.Valid := by
  refine ⟨v.pool,?_,(owned_newHandle bp data tier).nodup_iff.mpr (v.nodup.cons hfree)⟩
  intro buf hbuf
  rcases List.mem_append.mp hbuf with hold | hnew
  · exact v.handle buf hold
  · rw [List.mem_singleton.mp hnew]
    exact hfits

theorem alloc_newHandle (content : List UInt8) (hits misses : ℕ) :
    ({ (bp.alloc content).2 with hits := hits,misses := misses }.newHandle
      (bp.alloc content).1 none).2.Valid := by
  have hfits : Fits (bp.alloc content).2.sizes ⟨(bp.alloc content).1,none,false⟩ :=
    ⟨le_rfl,by simp [BufferPool.alloc,sizes],by simp⟩
  exact ((v.alloc content).count hits misses).newHandle hfits (v.alloc_array_not_mem content)

theorem poolPut {tier : Tier} {b : Slice} (hfull : Full bp.sizes tier b)
    (hfree : b.array ∉ bp.owned) : (bp.poolPut tier b).Valid := by
  refine ⟨?_,v.handle,(owned_poolPut bp tier b).nodup_iff.mpr (v.nodup.cons hfree)⟩
  intro t b' hb'
  by_cases ht : t = tier
  · subst ht
    simp only [BufferPool.poolPut,Function.update_self,List.mem_cons] at hb'
    rcases hb' with rfl | hold
    · exact hfull
    · exact v.pool t b' hold
  · simp only [BufferPool.poolPut,Function.update_of_ne ht] at hb'
    exact v.pool t b' hb'

theorem markReleased {i : ℕ} {buf : PoolBuffer} (hi : bp.handles[i]? = some buf)
    (hlive : buf.released = false) :
    (bp.markReleased i buf).Valid ∧ buf.data.array ∉ (bp.markReleased i buf).owned := by
  have hnodup := (owned_markReleased hi hlive).nodup_iff.mp v.nodup
  refine ⟨⟨v.pool,?_,hnodup.of_cons⟩,(List.nodup_cons.mp hnodup).1⟩
  intro buf' hbuf'
  rcases List.mem_or_eq_of_mem_set hbuf' with hold | rfl
  · exact v.handle buf' hold
  · have hfits := v.handle buf (List.mem_of_getElem? hi)
    exact ⟨hfits.len,hfits.array,hfits.tier⟩

theorem release (i : ℕ) : (bp.release i).Valid := by
  fun_cases BufferPool.release bp i with
  | case1 => exact v
  | case2 => exact v
  | case3 buf hi hlive tier htier =>
    obtain ⟨hvalid,hfree⟩ := v.markReleased hi (by simpa using hlive)
    have hfits := v.handle buf (List.mem_of_getElem? hi)
    have hcap := hfits.tier tier htier
    exact hvalid.poolPut ⟨hcap,hcap,hcap ▸ hfits.array⟩ hfree
  | case4 buf hi hlive htier => exact (v.markReleased hi (by simpa using hlive)).1

/-- What a tier's pool gives out is a full slice that nothing else owns. -/
theorem poolGet (tier : Tier) (pick : ℕ) :
    (bp.poolGet tier pick).2.Valid ∧
      Full (bp.poolGet tier pick).2.sizes tier (bp.poolGet tier pick).1 ∧
      (bp.poolGet tier pick).1.array ∉ (bp.poolGet tier pick).2.owned ∧
      (bp.poolGet tier pick).2.handles = bp.handles := by
  fun_cases BufferPool.poolGet bp tier pick with
  | case1 b hpick =>
    have hnodup := (owned_poolDrop hpick).nodup_iff.mp v.nodup
    exact ⟨v.poolDrop tier pick,v.pool tier b (List.mem_of_getElem? hpick),
      (List.nodup_cons.mp hnodup).1,rfl⟩
  | case2 hpick =>
    refine ⟨v.alloc _,⟨?_,?_,?_⟩,v.alloc_array_not_mem _,rfl⟩ <;>
      simp [BufferPool.make,BufferPool.alloc,sizes]

theorem get (size pick : ℕ) :
    ∃ bp' data, bp.get size pick = some (bp.handles.length,bp') ∧ bp'.Valid ∧
      bp'.handles = bp.handles ++ [⟨data,tierFor size,false⟩] ∧ data.len = size := by
  cases htier : tierFor size with
  | some tier =>
    obtain ⟨hvalid,hfull,hfree,hhandles⟩ := v.poolGet tier pick
    have hle : size ≤ (bp.poolGet tier pick).1.cap := hfull.cap ▸ tierFor_eq_some htier
    let data : Slice := { (bp.poolGet tier pick).1 with len := size }
    let taken := { (bp.poolGet tier pick).2 with hits := (bp.poolGet tier pick).2.hits + 1 }
    have hget : bp.get size pick = some (taken.newHandle data (some tier)) := by
      simp only [BufferPool.get,htier,Slice.reslice,if_pos hle]
      rfl
    have hfits : Fits taken.sizes ⟨data,some tier,false⟩ := by
      refine ⟨hle,hfull.array.trans (congrArg some hfull.cap.symm),?_⟩
      rintro t ⟨⟩
      exact hfull.cap
    refine ⟨(taken.newHandle data (some tier)).2,data,?_,(hvalid.count _ _).newHandle hfits hfree,
      ?_,rfl⟩
    · rw [hget,← hhandles]
      rfl
    · rw [← hhandles]
      rfl
  | none =>
    let made := { (bp.make size).2 with misses := bp.misses + 1 }
    refine ⟨(made.newHandle (bp.make size).1 none).2,(bp.make size).1,?_,
      v.alloc_newHandle _ _ _,rfl,List.length_replicate⟩
    rw [BufferPool.get,htier]
    rfl

variable {i : ℕ} {buf : PoolBuffer}

theorem length_bytes (hi : bp.handles[i]? = some buf) : (bp.bytes i).length = buf.data.len := by
  have hfits := v.handle buf (List.mem_of_getElem? hi)
  obtain ⟨old,hold,hsize⟩ : ∃ old, bp.arrays[buf.data.array]? = some old ∧
      old.length = buf.data.cap := by simpa [sizes] using hfits.array
  have hlen := hfits.len
  simp only [bytes,hi,List.getD_eq_getElem?_getD,hold,Option.getD_some,List.length_take]
  omega

/-- Writing as many bytes as a handle has makes them the handle's bytes, whatever its array
held before. -/
theorem bytes_write (hi : bp.handles[i]? = some buf) {content : List UInt8}
    (hlen : content.length = buf.data.len) :
    (bp.write buf.data.array 0 content).bytes i = content := by
  have hfits := v.handle buf (List.mem_of_getElem? hi)
  obtain ⟨old,hold,hsize⟩ : ∃ old, bp.arrays[buf.data.array]? = some old ∧
      old.length = buf.data.cap := by simpa [sizes] using hfits.array
  have hcap := hfits.len
  have htake : content.take old.length = content := List.take_of_length_le (by omega)
  simp [bytes,BufferPool.write,hi,hold,overwrite,htake,← hlen]

end Valid

end BufferPool
end P2PForge.Codec
