import P2PForge.FramePooled

/-! Frames from a slow peer.
A stream is a schedule of bytes with the times they arrive at, and a read that is still waiting
when the deadline comes fails. The deadline is armed once for the prefix of a frame and once for
every chunk, and not again while their bytes trickle in: what counts is when the last byte of
each of these reads arrives. -/
namespace P2PForge.Codec

/-- A stream that receives bytes over time, in nanoseconds of its own clock. It is closed once
all bytes have arrived. -/
structure Schedule where
  now : ℤ
  deadline : Option ℤ
  arrivals : List (UInt8 × ℤ)
  sorted : (arrivals.map Prod.snd).Pairwise (· ≤ ·)

namespace Schedule

def bytes (s : Schedule) : List UInt8 := s.arrivals.map Prod.fst

def times (s : Schedule) : List ℤ := s.arrivals.map Prod.snd

def consume (s : Schedule) (now : ℤ) (n : ℕ) : Schedule :=
  ⟨now,s.deadline,s.arrivals.drop n,by
    rw [List.map_drop]
    exact s.sorted.drop⟩

def arm (s : Schedule) (d : Duration) : Schedule :=
  { s with deadline := some (s.now + d.toInt) }

@[simp] theorem now_consume (s : Schedule) (now : ℤ) (n : ℕ) : (s.consume now n).now = now := rfl

@[simp] theorem deadline_consume (s : Schedule) (now : ℤ) (n : ℕ) :
    (s.consume now n).deadline = s.deadline := rfl

@[simp] theorem arrivals_consume (s : Schedule) (now : ℤ) (n : ℕ) :
    (s.consume now n).arrivals = s.arrivals.drop n := rfl

@[simp] theorem consume_zero (s : Schedule) : s.consume s.now 0 = s := rfl

@[simp] theorem consume_consume (s : Schedule) (now now' : ℤ) (n m : ℕ) :
    (s.consume now n).consume now' m = s.consume now' (n + m) := by
  simp [consume,List.drop_drop]

def Misses (s : Schedule) (t : ℤ) : Prop := s.now < t ∧ ∃ d ∈ s.deadline, d ≤ t

instance (s : Schedule) (t : ℤ) : Decidable (s.Misses t) :=
  inferInstanceAs (Decidable (s.now < t ∧ ∃ d ∈ s.deadline, d ≤ t))

def arrived (s : Schedule) (now : ℤ) (k : ℕ) : List (UInt8 × ℤ) :=
  (s.arrivals.take k).takeWhile (·.2 ≤ now)

/-- `Read`: waits for the next byte, or until the deadline, and returns what is there. -/
def read (s : Schedule) (k : ℕ) : Fetch Schedule :=
  match s.arrivals with
  | [] => ⟨[],some .eof,s⟩
  | first :: _ =>
    if s.Misses first.2 then
      ⟨[],some (.other "i/o deadline reached"),s.consume (s.deadline.getD s.now) 0⟩
    else
      let now := max s.now first.2
      ⟨(s.arrived now k).map Prod.fst,none,s.consume now (s.arrived now k).length⟩

variable {s : Schedule} {first : UInt8 × ℤ} {rest : List (UInt8 × ℤ)} {k : ℕ}

theorem read_hit (h : s.arrivals = first :: rest) (hit : ¬ s.Misses first.2) (k : ℕ) :
    s.read k = ⟨(s.arrived (max s.now first.2) k).map Prod.fst,none,
      s.consume (max s.now first.2) (s.arrived (max s.now first.2) k).length⟩ := by
  unfold read
  split
  · rename_i hnil
    cases h.symm.trans hnil
  · rename_i first' rest' hcons
    obtain ⟨rfl,_⟩ := List.cons_eq_cons.mp (h.symm.trans hcons)
    rw [if_neg hit]

theorem hit_of_read (h : (s.read k).err = none) :
    ∃ first rest, s.arrivals = first :: rest ∧ ¬ s.Misses first.2 := by
  revert h
  fun_cases read s k with
  | case1 => simp
  | case2 => simp
  | case3 first rest hs hit => exact fun _ => ⟨first,rest,hs,hit⟩

theorem read_miss {e : StreamErr} (h : (s.read k).err = some e) : (s.read k).bytes = [] := by
  revert h
  fun_cases read s k <;> simp

theorem arrived_eq_cons (h : s.arrivals = first :: rest) (hk : 0 < k) :
    ∃ more, s.arrived (max s.now first.2) k = first :: more := by
  obtain ⟨j,rfl⟩ := Nat.exists_eq_succ_of_ne_zero hk.ne'
  refine ⟨(rest.take j).takeWhile (·.2 ≤ max s.now first.2),?_⟩
  rw [arrived,h,List.take_succ_cons,List.takeWhile_cons_of_pos (by simp)]

theorem le_of_mem_arrived {now : ℤ} {a : UInt8 × ℤ} (h : a ∈ s.arrived now k) : a.2 ≤ now := by
  simpa using List.mem_takeWhile_imp h

theorem take_eq_arrived_append (now : ℤ) (k : ℕ) :
    s.arrivals.take k = s.arrived now k ++
      (s.arrivals.drop (s.arrived now k).length).take (k - (s.arrived now k).length) := by
  have hpre : s.arrived now k <+: s.arrivals.take k := List.takeWhile_prefix _
  have hdrop := List.prefix_iff_eq_append.mp hpre
  rwa [List.drop_take,eq_comm] at hdrop

def reader : Reader Schedule where
  read := read
  setReadDeadline := some fun d s => s.arm d
  delay _ := 0
  read_le s k := by
    fun_cases read s k with
    | case1 => simp
    | case2 => simp
    | case3 =>
      rw [List.length_map]
      exact (List.takeWhile_prefix _).length_le.trans (List.length_take_le _ _)
  delay_lt s k hk := by
    intro hnil hnone
    obtain ⟨first,rest,hs,hit⟩ := hit_of_read hnone
    obtain ⟨more,hmore⟩ := arrived_eq_cons hs hk
    rw [read_hit hs hit,hmore] at hnil
    cases hnil

theorem reader_read (s : Schedule) (k : ℕ) : reader.read s k = s.read k := rfl

/-- The time at which the bytes that arrive at `times` are all there, for a reader that waits
since `now`. -/
def allThere (now : ℤ) (times : List ℤ) : ℤ := times.foldl max now

theorem allThere_append (now : ℤ) (times times' : List ℤ) :
    allThere now (times ++ times') = allThere (allThere now times) times' :=
  List.foldl_append ..

theorem allThere_of_le {now : ℤ} {times : List ℤ} (h : ∀ t ∈ times, t ≤ now) :
    allThere now times = now := by
  induction times with
  | nil => rfl
  | cons t times ih =>
    obtain ⟨ht,htimes⟩ := List.forall_mem_cons.mp h
    rw [allThere,List.foldl_cons,max_eq_left ht]
    exact ih htimes

theorem allThere_lt {now d : ℤ} {times : List ℤ} (hnow : now < d) (h : ∀ t ∈ times, t < d) :
    allThere now times < d := by
  induction times generalizing now with
  | nil => exact hnow
  | cons t times ih =>
    obtain ⟨ht,htimes⟩ := List.forall_mem_cons.mp h
    exact ih (max_lt hnow ht) htimes

/-- What one read that does not fail does: it returns the bytes `got` off the front, and by then
it is the time at which they are there. -/
theorem read_ok (hk : 0 < k) (h : (reader.read s k).err = none) :
    ∃ got, (reader.read s k).bytes = got.map Prod.fst ∧ got.length ≤ k ∧
      (reader.read s k).next = s.consume (allThere s.now (got.map Prod.snd)) got.length ∧
      (∀ a ∈ got, a.2 ≤ s.now ∨ ∀ d ∈ s.deadline, a.2 < d) ∧
      s.arrivals.take k = got ++ (s.arrivals.drop got.length).take (k - got.length) := by
  obtain ⟨first,rest,hs,hit⟩ := hit_of_read h
  obtain ⟨more,hmore⟩ := arrived_eq_cons hs hk
  have hthere : allThere s.now ((s.arrived (max s.now first.2) k).map Prod.snd) =
      max s.now first.2 := by
    have hle : ∀ t ∈ more.map Prod.snd, t ≤ max s.now first.2 := by
      intro t ht
      obtain ⟨a,ha,rfl⟩ := List.mem_map.mp ht
      exact le_of_mem_arrived (hmore ▸ List.mem_cons_of_mem first ha)
    rw [hmore]
    exact allThere_of_le hle
  have hlen : (s.arrived (max s.now first.2) k).length ≤ k :=
    (List.takeWhile_prefix _).length_le.trans (List.length_take_le _ _)
  refine ⟨s.arrived (max s.now first.2) k,?_,hlen,?_,?_,take_eq_arrived_append _ _⟩
  · rw [reader_read,read_hit hs hit]
  · rw [reader_read,read_hit hs hit,hthere]
  · intro a ha
    have hle := le_of_mem_arrived ha
    by_cases hwait : s.now < first.2
    · refine .inr fun d hd => ?_
      have hlt : first.2 < d := not_le.mp fun hge => hit ⟨hwait,d,hd,hge⟩
      omega
    · exact .inl (by omega)

theorem read_prompt {d : ℤ} (hd : s.deadline = some d) (hk : 0 < k) (hlen : k ≤ s.arrivals.length)
    (h : ∀ a ∈ s.arrivals.take k, a.2 < d) : (reader.read s k).err = none := by
  cases hs : s.arrivals with
  | nil =>
    rw [hs,List.length_nil] at hlen
    omega
  | cons first rest =>
    have hfirst : first ∈ s.arrivals.take k := by
      obtain ⟨j,rfl⟩ := Nat.exists_eq_succ_of_ne_zero hk.ne'
      simp [hs]
    have hlt := h first hfirst
    have hit : ¬ s.Misses first.2 := by
      rintro ⟨_,d',hd',hle⟩
      obtain rfl : d = d' := Option.some.inj (hd.symm.trans hd')
      omega
    rw [reader_read,read_hit hs hit]

theorem readAtLeast_prompt {d : ℤ} (got : List UInt8) (missing : ℕ) (s : Schedule)
    (hd : s.deadline = some d) (hlen : missing ≤ s.arrivals.length)
    (h : ∀ a ∈ s.arrivals.take missing, a.2 < d) :
    reader.readAtLeast got missing s = ⟨got ++ (s.arrivals.take missing).map Prod.fst,none,
      s.consume (allThere s.now ((s.arrivals.take missing).map Prod.snd)) missing⟩ := by
  fun_induction Reader.readAtLeast reader got missing s with
  | case1 got s => simp [allThere]
  | case2 got missing s hpos herr ih =>
    obtain ⟨part,hbytes,hle,hnext,_,hsplit⟩ := read_ok (Nat.pos_of_ne_zero hpos) herr
    have hrest : missing - part.length ≤ (s.arrivals.drop part.length).length := by
      rw [List.length_drop]
      omega
    rw [hnext,hbytes,List.length_map] at ih ⊢
    rw [ih hd hrest fun a ha => h a (hsplit ▸ List.mem_append_right _ ha),hsplit]
    simp only [consume_consume,now_consume,arrivals_consume,List.map_append,allThere_append,
      List.append_assoc,Nat.add_sub_cancel' hle]
  | case3 got missing s hpos e herr hfull =>
    have hnone := read_prompt hd (Nat.pos_of_ne_zero hpos) hlen h
    cases hnone.symm.trans herr
  | case4 got missing s hpos e herr hshort =>
    have hnone := read_prompt hd (Nat.pos_of_ne_zero hpos) hlen h
    cases hnone.symm.trans herr

theorem readAtLeast_late {d : ℤ} (got : List UInt8) (missing : ℕ) (s : Schedule)
    (hd : s.deadline = some d) (hnow : s.now < d)
    (h : ∃ a ∈ s.arrivals.take missing, d ≤ a.2) :
    (reader.readAtLeast got missing s).err ≠ none := by
  fun_induction Reader.readAtLeast reader got missing s with
  | case1 got s => simp at h
  | case2 got missing s hpos herr ih =>
    obtain ⟨part,hbytes,_,hnext,hpart,hsplit⟩ := read_ok (Nat.pos_of_ne_zero hpos) herr
    have hlt : ∀ a ∈ part, a.2 < d := by
      intro a ha
      rcases hpart a ha with hle | hall
      · omega
      · exact hall d hd
    rw [hnext,hbytes,List.length_map] at ih ⊢
    apply ih hd (allThere_lt hnow (List.forall_mem_map.mpr hlt))
    obtain ⟨a,ha,hlate⟩ := h
    rw [hsplit] at ha
    rcases List.mem_append.mp ha with hfirst | hrest
    · exact absurd (hlt a hfirst) (not_lt.mpr hlate)
    · exact ⟨a,hrest,hlate⟩
  | case3 got missing s hpos e herr hfull =>
    have hnil : (reader.read s missing).bytes = [] := read_miss herr
    rw [hnil,List.length_nil] at hfull
    omega
  | case4 got missing s hpos e herr hshort => simp

end Schedule

open Schedule

/-- Every byte of each read arrives less than `idle` after that read began, where a read begins
once the one before it has all its bytes. -/
def Prompt (idle : ℤ) : ℤ → List ℕ → List ℤ → Prop
  | _,[],_ => True
  | now,k :: ks,times =>
    (∀ t ∈ times.take k, t < now + idle) ∧
      Prompt idle (allThere now (times.take k)) ks (times.drop k)

instance decidablePrompt (idle : ℤ) : ∀ now sizes times, Decidable (Prompt idle now sizes times)
  | _,[],_ => .isTrue trivial
  | now,k :: ks,times =>
    have := decidablePrompt idle (allThere now (times.take k)) ks (times.drop k)
    inferInstanceAs (Decidable (_ ∧ _))

section Reads

variable {idle : Duration} {s : Schedule} {k : ℕ}

theorem armRead_schedule (h : 0 < idle) (s : Schedule) : armRead reader idle s = s.arm idle := by
  have hpos : ¬ idle ≤ 0 := Int64.not_le.mpr h
  simp only [armRead,if_neg hpos,reader]

theorem readFull_prompt (h : 0 < idle) (hlen : k ≤ s.bytes.length)
    (hprompt : ∀ t ∈ s.times.take k, t < s.now + idle.toInt) :
    (reader.readFull k (armRead reader idle s)).bytes = s.bytes.take k ∧
      (reader.readFull k (armRead reader idle s)).err = none ∧
      (reader.readFull k (armRead reader idle s)).next.now = allThere s.now (s.times.take k) ∧
      (reader.readFull k (armRead reader idle s)).next.bytes = s.bytes.drop k ∧
      (reader.readFull k (armRead reader idle s)).next.times = s.times.drop k := by
  have hall : ∀ a ∈ s.arrivals.take k, a.2 < s.now + idle.toInt := by
    intro a ha
    apply hprompt
    rw [times,← List.map_take]
    exact List.mem_map_of_mem ha
  rw [bytes,List.length_map] at hlen
  rw [armRead_schedule h,Reader.readFull,readAtLeast_prompt [] k (s.arm idle) rfl hlen hall]
  simp [bytes,times,arm,List.map_take,List.map_drop]

theorem readFull_late (h : 0 < idle) (hlate : ¬ ∀ t ∈ s.times.take k, t < s.now + idle.toInt) :
    ∃ e, (reader.readFull k (armRead reader idle s)).err = some e := by
  have hpos : 0 < idle.toInt := by simpa using Int64.lt_iff_toInt_lt.mp h
  have hsome : ∃ a ∈ s.arrivals.take k, s.now + idle.toInt ≤ a.2 := by
    rw [times,← List.map_take] at hlate
    push Not at hlate
    obtain ⟨t,ht,hle⟩ := hlate
    obtain ⟨a,ha,rfl⟩ := List.mem_map.mp ht
    exact ⟨a,ha,hle⟩
  apply Option.ne_none_iff_exists'.mp
  rw [armRead_schedule h]
  exact readAtLeast_late [] k (s.arm idle) rfl (by simpa [arm] using hpos) hsome

theorem readEach_schedule (h : 0 < idle) (sizes : List ℕ) (hlen : sizes.sum ≤ s.bytes.length) :
    (Prompt idle.toInt s.now sizes s.times →
      (readEach reader idle sizes s).1 = .ok (s.bytes.take sizes.sum)) ∧
    (¬ Prompt idle.toInt s.now sizes s.times →
      ∃ e, (readEach reader idle sizes s).1 = .error e) := by
  induction sizes generalizing s with
  | nil => exact ⟨fun _ => rfl,fun hlate => absurd trivial hlate⟩
  | cons k ks ih =>
    rw [List.sum_cons] at hlen ⊢
    by_cases hfirst : ∀ t ∈ s.times.take k, t < s.now + idle.toInt
    · obtain ⟨hbytes,herr,hnow,hbytes',htimes⟩ := readFull_prompt h (by omega) hfirst
      have htail := ih (s := (reader.readFull k (armRead reader idle s)).next)
        (by rw [hbytes',List.length_drop]; omega)
      rw [hnow,hbytes',htimes] at htail
      rw [(readEach_cons_ok herr).1,hbytes]
      constructor
      · intro hprompt
        rw [htail.1 hprompt.2,List.take_add]
        rfl
      · intro hlate
        obtain ⟨e,he⟩ := htail.2 fun hrest => hlate ⟨hfirst,hrest⟩
        exact ⟨e,by rw [he]; rfl⟩
    · obtain ⟨e,he⟩ := readFull_late h hfirst
      rw [readEach_cons_error he]
      exact ⟨fun hprompt => absurd hprompt.1 hfirst,fun _ => ⟨_,rfl⟩⟩

end Reads

theorem readFrame_prompt_iff {idle : Duration} (hidle : 0 < idle) {p rest : List UInt8}
    {s : Schedule} (hframed : Framed p rest s.bytes) :
    (readFrameWithTimeout reader idle s).1 = .ok p ↔
      Prompt idle.toInt s.now (lengthPrefixSize :: chunkSizes p.length) s.times := by
  obtain ⟨hstream,hpos,hmax⟩ := hframed
  have hmax' : maxFrameSize < 2^32 := by decide
  have hlen : lengthPrefixSize + p.length ≤ s.bytes.length := by
    rw [hstream,List.length_append,List.length_append,length_putUint32]
    omega
  rw [readFrameWithTimeout_eq]
  by_cases hheader : ∀ t ∈ s.times.take lengthPrefixSize, t < s.now + idle.toInt
  · obtain ⟨hbytes,herr,hnow,hbytes',htimes⟩ := readFull_prompt hidle (by omega) hheader
    rw [hstream,List.append_assoc] at hbytes hbytes'
    rw [List.take_left' (length_putUint32 _)] at hbytes
    rw [List.drop_left' (length_putUint32 _)] at hbytes'
    have hlength : readFrameLength reader idle s = (.ok p.length,
        (reader.readFull lengthPrefixSize (armRead reader idle s)).next) := by
      simp only [readFrameLength,herr,hbytes,uint32_putUint32 (show p.length < 2^32 by omega)]
      rw [if_neg (by omega),if_neg (by omega)]
    have hbody := readEach_schedule hidle (chunkSizes p.length)
      (s := (reader.readFull lengthPrefixSize (armRead reader idle s)).next)
      (by rw [hbytes',sum_chunkSizes,List.length_append]; omega)
    rw [hnow,htimes,hbytes',sum_chunkSizes,List.take_left] at hbody
    simp only [hlength,Prompt]
    constructor
    · intro hok
      refine ⟨hheader,not_not.mp fun hlate => ?_⟩
      obtain ⟨e,he⟩ := hbody.2 hlate
      cases hok.symm.trans he
    · exact fun hprompt => hbody.1 hprompt.2
  · obtain ⟨e,he⟩ := readFull_late hidle hheader
    have hlength : (readFrameLength reader idle s).1 = .error (.readLength e) := by
      simp only [readFrameLength,he]
    simp only [hlength,Prompt]
    exact iff_of_false (by simp) fun hprompt => hheader hprompt.1

/-- The idle timeout cuts off a peer exactly if a byte of the prefix, or of one of the chunks,
arrives `idle` or more after the reading of the prefix, or of that chunk, began. -/
theorem readFrameWithTimeout_iff_prompt {idle : Duration} (hidle : 0 < idle) {p rest : List UInt8}
    {s : Schedule} (hframed : Framed p rest s.bytes) :
    ((readFrameWithTimeout reader idle s).1 = .ok p ↔
      Prompt idle.toInt s.now (lengthPrefixSize :: chunkSizes p.length) s.times) ∧
    ∀ {bp : BufferPool}, bp.Valid → ∀ pick,
      ∃ out, readFramePooledWithTimeout reader idle s bp pick = some out ∧
        (out.result.map out.pool.bytes = .ok p ↔
          Prompt idle.toInt s.now (lengthPrefixSize :: chunkSizes p.length) s.times) := by
  refine ⟨readFrame_prompt_iff hidle hframed,?_⟩
  intro bp v pick
  obtain ⟨out,hout,hfollows⟩ := v.readFramePooled reader idle s pick
  refine ⟨out,hout,?_⟩
  rw [hfollows.result]
  exact readFrame_prompt_iff hidle hframed

/-- The first byte arrives less than `idle` after `now`, and every other one less than `idle`
after the one before it. -/
def Lively (idle now : ℤ) (times : List ℤ) : Prop := (now :: times).IsChain fun t u => u < t + idle

def trickle (gap : ℕ) : Schedule where
  now := 0
  deadline := none
  arrivals := [(0,gap),(0,2*gap),(0,3*gap),(1,4*gap),(7,5*gap)]
  sorted := by
    simp
    omega

theorem trickle_framed (gap : ℕ) : Framed [7] [] (trickle gap).bytes :=
  ⟨rfl,by decide,by decide⟩

theorem chunkSizes_one : chunkSizes 1 = [1] := by
  rw [chunkSizes,if_pos (by decide),show min chunkSize 1 = 1 by decide,chunkSizes,
    if_neg (by decide)]

/-- With a second between the bytes, the frame is returned under an idle timeout of thirty. -/
theorem trickle_second_returned :
    (readFrameWithTimeout reader (30*Duration.second) (trickle 1000000000)).1 = .ok [7] := by
  refine (readFrameWithTimeout_iff_prompt (by decide) (trickle_framed _)).1.mpr ?_
  rw [List.length_singleton,chunkSizes_one]
  decide

/-- With twenty seconds between the bytes, the peer makes progress well within thirty seconds,
and is cut off in the middle of the prefix. -/
theorem trickle_twentySeconds_cutOff :
    Lively (30*Duration.second).toInt 0 (trickle 20000000000).times ∧
      (readFrameWithTimeout reader (30*Duration.second) (trickle 20000000000)).1 ≠ .ok [7] ∧
      ∃ out, readFramePooledWithTimeout reader (30*Duration.second) (trickle 20000000000)
          BufferPool.newBufferPool 0 = some out ∧
        out.result.map out.pool.bytes ≠ .ok [7] := by
  have hlate : (readFrameWithTimeout reader (30*Duration.second) (trickle 20000000000)).1 ≠
      .ok [7] := by
    rw [ne_eq,readFrame_prompt_iff (by decide) (trickle_framed _),List.length_singleton,
      chunkSizes_one]
    decide
  obtain ⟨out,hout,hfollows⟩ := BufferPool.valid_newBufferPool.readFramePooled reader
    (30*Duration.second) (trickle 20000000000) 0
  refine ⟨?_,hlate,out,hout,by rwa [hfollows.result]⟩
  unfold Lively
  decide

end P2PForge.Codec
