import P2PForge.CallLog
import P2PForge.Pipeline

/-! Connection limits.
From two numbers of its configuration a host computes what it gives to the resource manager and
to the connection manager. Integers have 64 bits, and nothing bounds the two numbers: products
of them may wrap, and a limit that has wrapped is a small number, no limit or one of the values
with a meaning of their own. -/
namespace P2PForge.Host

open Acting

/-- `rcmgr.LimitVal`. 0 stands for the default, -1 for no limit and -2 for nothing at all. -/
abbrev LimitVal := Int64

def maxInt : Int64 := Int64.maxValue

structure Config where
  maxConnections : Int64
  maxConnectionsPerIP : Int64
  connManagerGracePeriod : Duration

def streamsPerConn : Int64 := 8

def defaultConnManagerGracePeriod : Duration := 30*Duration.second

structure ResourceLimits where
  conns : LimitVal
  connsInbound : LimitVal
  connsOutbound : LimitVal
  streams : LimitVal
  streamsInbound : LimitVal
  streamsOutbound : LimitVal
  fd : LimitVal

def resourceLimits (conns : Int64) : ResourceLimits where
  conns := conns
  connsInbound := conns
  connsOutbound := conns
  streams := conns*streamsPerConn*2
  streamsInbound := conns*streamsPerConn
  streamsOutbound := conns*streamsPerConn
  fd := conns

structure PartialLimitConfig where
  system : ResourceLimits
  transient : ResourceLimits

/-- Connections in their handshake are a scope of their own, with a quarter of the cap. -/
def transientConns (maxConns : Int64) : Int64 := max (maxConns / 4) 64

/-- What `newResourceManager` puts in the place of the scaled defaults, if anything. -/
def limitConfig (cfg : Config) : Option PartialLimitConfig :=
  if cfg.maxConnections > 0 then
    some ⟨resourceLimits cfg.maxConnections,resourceLimits (transientConns cfg.maxConnections)⟩
  else none

structure ConnLimitPerSubnet where
  prefixLength : ℕ
  connCount : Int64

/-- The limits per subnet, for addresses of either family. New connections are not limited in
their rate. -/
structure SubnetLimits where
  ipv4 : List ConnLimitPerSubnet
  ipv6 : List ConnLimitPerSubnet

/-- The division panics if `b` is 0. -/
def saturatingMul (a b : Int64) : Int64 := if a > maxInt / b then maxInt else a*b

def capacity (perIP : Int64) : Int64 := if perIP > 0 then perIP else maxInt

def perAddressOptions (perIP : Int64) : SubnetLimits where
  ipv4 := [⟨32,capacity perIP⟩]
  ipv6 := [⟨56,capacity perIP⟩,⟨48,saturatingMul (capacity perIP) 8⟩]

def waterMarks (maxConns : Int64) : Int64 × Int64 :=
  let high := maxConns - maxConns / 10
  let low := maxConns - maxConns / 5
  let high := if high ≤ 0 then maxConns else high
  let low := if low ≤ 0 then high else low
  (low,high)

def gracePeriod (cfg : Config) : Duration :=
  if cfg.connManagerGracePeriod ≤ 0 then defaultConnManagerGracePeriod
  else cfg.connManagerGracePeriod

inductive LimitCall
  | newResourceManager (limits : Option PartialLimitConfig) (perAddress : SubnetLimits)
  | newConnManager (low high : Int64) (grace : Duration)
  | closeResourceManager

inductive LimitOption
  | resourceManager
  | connectionManager

variable (o : Answers LimitCall GoErr)

def newResourceManager (cfg : Config) : Acting LimitCall GoErr (Option GoErr) :=
  checking (perform o (.newResourceManager (limitConfig cfg)
      (perAddressOptions cfg.maxConnectionsPerIP)))
    (fun e => return some (.wrap "create resource manager: " e))
    (return none)

def connectionLimitOptions (cfg : Config) :
    Acting LimitCall GoErr (Except GoErr (List LimitOption)) :=
  checking (newResourceManager o cfg)
    (fun e => return .error e) <|
  if cfg.maxConnections ≤ 0 then return .ok [.resourceManager]
  else
    checking (perform o (.newConnManager (waterMarks cfg.maxConnections).1
        (waterMarks cfg.maxConnections).2 (gracePeriod cfg)))
      (fun e => do
        let _ ← perform o .closeResourceManager
        return .error (.wrap "create connection manager: " e))
      (return .ok [.resourceManager,.connectionManager])

/-- Every limit is a limit, and leaves room for a stream on every connection in either
direction. -/
structure ResourceLimits.Sane (l : ResourceLimits) : Prop where
  pos : ∀ x ∈ [l.conns,l.connsInbound,l.connsOutbound,l.streams,l.streamsInbound,
    l.streamsOutbound,l.fd], 0 < x
  inbound : l.conns ≤ l.streamsInbound
  outbound : l.conns ≤ l.streamsOutbound
  streams : l.streamsInbound ≤ l.streams ∧ l.streamsOutbound ≤ l.streams

theorem resourceLimits_sane_iff (c : Int64) :
    (resourceLimits c).Sane ↔ 0 < c ∧ c ≤ c*streamsPerConn ∧
      c*streamsPerConn ≤ c*streamsPerConn*2 := by
  constructor
  · intro h
    exact ⟨h.pos c List.mem_cons_self,h.inbound,h.streams.1⟩
  · rintro ⟨hconns,hinbound,hstreams⟩
    have hpos := Int64.lt_of_lt_of_le hconns hinbound
    have hpos' := Int64.lt_of_lt_of_le hpos hstreams
    exact ⟨by simp [resourceLimits,hconns,hpos,hpos'],hinbound,hinbound,hstreams,hstreams⟩

section Arithmetic

variable {c m perIP : Int64}

/-- In a scope that is not too large for a product to wrap more than once, the limits are sane
exactly if none of them has wrapped. -/
theorem resourceLimits_sane_iff_lt (hpos : 0 < c.toInt) (hlt : c.toInt < 2^61) :
    (resourceLimits c).Sane ↔ c.toInt*16 < 2^63 := by
  have height : streamsPerConn.toInt = 8 := by decide
  have htwo : (2 : Int64).toInt = 2 := by decide
  rw [resourceLimits_sane_iff]
  simp only [Int64.lt_iff_toInt_lt,Int64.le_iff_toInt_le,Int64.toInt_zero]
  by_cases hinbound : c.toInt*8 < 2^63
  · have hproduct : (c*streamsPerConn).toInt = c.toInt*8 := by
      rw [toInt_mul_of_lt] <;> rw [height] <;> omega
    by_cases hall : c.toInt*16 < 2^63
    · have hdouble : (c*streamsPerConn*2).toInt = c.toInt*16 := by
        rw [toInt_mul_of_lt] <;> rw [hproduct,htwo] <;> omega
      omega
    · have hdouble : (c*streamsPerConn*2).toInt = c.toInt*16 - 2^64 := by
        rw [Int64.toInt_mul,hproduct,htwo,bmod_wrapped] <;> omega
      omega
  · have hproduct : (c*streamsPerConn).toInt = c.toInt*8 - 2^64 := by
      rw [Int64.toInt_mul,height,bmod_wrapped] <;> omega
    omega

theorem toInt_transientConns (hm : 0 < m.toInt) :
    (transientConns m).toInt = max (m.toInt / 4) 64 := by
  have hquarter : (m / 4).toInt = m.toInt / 4 := toInt_div_of_nonneg hm.le (by decide)
  have hsixtyFour : (64 : Int64).toInt = 64 := by decide
  change (if m / 4 ≤ 64 then (64 : Int64) else m / 4).toInt = _
  split_ifs with hle <;> rw [Int64.le_iff_toInt_le,hquarter,hsixtyFour] at hle <;> omega

/-- The smaller scope decides: it can only be sane if the larger one does not wrap twice. -/
theorem limits_sane_iff (hm : 0 < m.toInt) :
    (resourceLimits m).Sane ∧ (resourceLimits (transientConns m)).Sane ↔
      m.toInt*16 < 2^63 := by
  have hmax := m.toInt_lt
  have htransient := toInt_transientConns hm
  rw [resourceLimits_sane_iff_lt (c := transientConns m) (by omega) (by omega),htransient]
  constructor
  · rintro ⟨hsystem,hlt⟩
    exact (resourceLimits_sane_iff_lt hm (by omega)).mp hsystem
  · intro hlt
    exact ⟨(resourceLimits_sane_iff_lt hm (by omega)).mpr hlt,by omega⟩

theorem waterMarks_ordered (hm : 0 < m.toInt) :
    0 < (waterMarks m).1 ∧ (waterMarks m).1 ≤ (waterMarks m).2 ∧ (waterMarks m).2 ≤ m := by
  have htenth : (m / 10).toInt = m.toInt / 10 := toInt_div_of_nonneg hm.le (by decide)
  have hfifth : (m / 5).toInt = m.toInt / 5 := toInt_div_of_nonneg hm.le (by decide)
  have hmax := m.toInt_lt
  have hhigh : (m - m / 10).toInt = m.toInt - m.toInt / 10 := by
    rw [toInt_sub_of_lt] <;> omega
  have hlow : (m - m / 5).toInt = m.toInt - m.toInt / 5 := by
    rw [toInt_sub_of_lt] <;> omega
  have hpos : ¬ m - m / 10 ≤ 0 := by
    rw [Int64.le_iff_toInt_le,hhigh,Int64.toInt_zero]
    omega
  have hpos' : ¬ m - m / 5 ≤ 0 := by
    rw [Int64.le_iff_toInt_le,hlow,Int64.toInt_zero]
    omega
  have hmarks : waterMarks m = (m - m / 5,m - m / 10) := by
    simp only [waterMarks,if_neg hpos,if_neg hpos']
  rw [hmarks]
  simp only [Int64.lt_iff_toInt_lt,Int64.le_iff_toInt_le,Int64.toInt_zero,hhigh,hlow]
  omega

theorem toInt_maxInt : maxInt.toInt = 2^63 - 1 := by decide

theorem toInt_saturatingMul {a b : Int64} (ha : 0 < a.toInt) (hb : 0 < b.toInt) :
    (saturatingMul a b).toInt = min (a.toInt*b.toInt) (2^63 - 1) := by
  have hquotient : (maxInt / b).toInt = (2^63 - 1) / b.toInt := by
    rw [toInt_div_of_nonneg (by decide) hb,toInt_maxInt]
  have hle : a.toInt ≤ (2^63 - 1) / b.toInt ↔ a.toInt*b.toInt ≤ 2^63 - 1 :=
    Int.le_ediv_iff_mul_le hb
  have hproduct : 0 < a.toInt*b.toInt := Int.mul_pos ha hb
  unfold saturatingMul
  split_ifs with hover <;> rw [gt_iff_lt,Int64.lt_iff_toInt_lt,hquotient,← not_le,hle] at hover
  · rw [toInt_maxInt,min_eq_right (by omega)]
  · rw [toInt_mul_of_lt (by omega) (by omega),min_eq_left (by omega)]

theorem toInt_capacity_pos (perIP : Int64) : 0 < (capacity perIP).toInt := by
  unfold capacity
  split_ifs with hpos
  · exact toInt_pos (Int64.not_le.mpr hpos)
  · decide

end Arithmetic

/-- The caps are caps, and that of the larger subnets is eight times the other one, as far as there
are integers. -/
structure SubnetLimits.Sane (l : SubnetLimits) : Prop where
  pos : ∀ x ∈ l.ipv4 ++ l.ipv6, 0 < x.connCount
  ipv6 : ∃ cap cap48, l.ipv6 = [⟨56,cap⟩,⟨48,cap48⟩] ∧ cap ≤ cap48 ∧
    cap48.toInt = min (8*cap.toInt) (2^63 - 1)

theorem perAddressOptions_sane (perIP : Int64) : (perAddressOptions perIP).Sane := by
  have hpos := toInt_capacity_pos perIP
  have hmax := (capacity perIP).toInt_lt
  have hcap : (saturatingMul (capacity perIP) 8).toInt =
      min (8*(capacity perIP).toInt) (2^63 - 1) := by
    have height : (8 : Int64).toInt = 8 := by decide
    rw [toInt_saturatingMul hpos (by decide),height,mul_comm]
  refine ⟨?_,_,_,rfl,?_,hcap⟩
  · simp only [perAddressOptions,List.cons_append,List.nil_append,List.forall_mem_cons,
      Int64.lt_iff_toInt_lt,Int64.toInt_zero,hcap]
    refine ⟨hpos,hpos,by omega,by simp⟩
  · rw [Int64.le_iff_toInt_le,hcap]
    omega

/-- The system and transient limits that are asked for are sane. -/
def LimitCall.KeepsLimits : LimitCall → Prop
  | .newResourceManager limits _ => ∃ l ∈ limits, l.system.Sane ∧ l.transient.Sane
  | _ => True

/-- So are the caps per subnet, and the water marks in a host that may hold `m` connections. -/
def LimitCall.KeepsMarks (m : Int64) : LimitCall → Prop
  | .newResourceManager _ perAddress => perAddress.Sane
  | .newConnManager low high _ => 0 < low ∧ low ≤ high ∧ high ≤ m
  | .closeResourceManager => True

section Calls

variable {cfg : Config}

inductive LimitsSet (cfg : Config) :
    Except GoErr (List LimitOption) → List (Entry LimitCall GoErr) → Prop
  | refused (e) : LimitsSet cfg (.error (.wrap "create resource manager: " e))
    [⟨.newResourceManager (limitConfig cfg) (perAddressOptions cfg.maxConnectionsPerIP),some e⟩]
  | unmanaged (e err) : LimitsSet cfg (.error (.wrap "create connection manager: " e))
    [⟨.newResourceManager (limitConfig cfg) (perAddressOptions cfg.maxConnectionsPerIP),none⟩,
      ⟨.newConnManager (waterMarks cfg.maxConnections).1 (waterMarks cfg.maxConnections).2
        (gracePeriod cfg),some e⟩,⟨.closeResourceManager,err⟩]
  | managed : LimitsSet cfg (.ok [.resourceManager,.connectionManager])
    [⟨.newResourceManager (limitConfig cfg) (perAddressOptions cfg.maxConnectionsPerIP),none⟩,
      ⟨.newConnManager (waterMarks cfg.maxConnections).1 (waterMarks cfg.maxConnections).2
        (gracePeriod cfg),none⟩]

theorem adds_newResourceManager (cfg : Config) :
    Adds (newResourceManager o cfg) fun err l => ∃ answer,
      err = answer.map (.wrap "create resource manager: ") ∧
      l = [⟨.newResourceManager (limitConfig cfg) (perAddressOptions cfg.maxConnectionsPerIP),
        answer⟩] := by
  refine (adds_perform _).checking ?_ ?_
  · rintro e l rfl
    exact adds_pure ⟨some e,rfl,rfl⟩
  · rintro l rfl
    exact adds_pure ⟨none,rfl,rfl⟩

theorem adds_connectionLimitOptions (hm : 0 < cfg.maxConnections) :
    Adds (connectionLimitOptions o cfg) (LimitsSet cfg) := by
  refine (adds_newResourceManager o cfg).checking ?_ ?_
  · rintro e l ⟨_ | e',he,rfl⟩
    · cases he
    · cases he
      exact adds_pure (.refused e')
  · rintro l ⟨_ | e',he,rfl⟩
    · rw [if_neg (Int64.not_le.mpr hm)]
      refine (adds_perform _).checking ?_ ?_
      · rintro e l rfl
        refine (adds_perform _).bind ?_
        rintro err l rfl
        exact adds_pure (.unmanaged e err)
      · rintro l rfl
        exact adds_pure .managed
    · cases he

variable {res : Except GoErr (List LimitOption)} {l : List (Entry LimitCall GoErr)}

theorem LimitsSet.keepsLimits_iff (h : LimitsSet cfg res l) (hm : 0 < cfg.maxConnections) :
    (∀ x ∈ l, x.call.KeepsLimits) ↔ cfg.maxConnections.toInt*16 < 2^63 := by
  have hm' : 0 < cfg.maxConnections.toInt := toInt_pos (Int64.not_le.mpr hm)
  have hlimits : limitConfig cfg = some ⟨resourceLimits cfg.maxConnections,
      resourceLimits (transientConns cfg.maxConnections)⟩ := if_pos hm
  rw [← limits_sane_iff hm']
  cases h <;> simp [LimitCall.KeepsLimits,hlimits]

theorem LimitsSet.keepsMarks (h : LimitsSet cfg res l) (hm : 0 < cfg.maxConnections) :
    ∀ x ∈ l, x.call.KeepsMarks cfg.maxConnections := by
  have hm' : 0 < cfg.maxConnections.toInt := toInt_pos (Int64.not_le.mpr hm)
  have hmarks := waterMarks_ordered hm'
  have hcaps := perAddressOptions_sane cfg.maxConnectionsPerIP
  cases h <;> simp [LimitCall.KeepsMarks,hmarks,hcaps]

/-- Connection limits and the arithmetic. Setting the limits of a host with a positive
`MaxConnections` asks for sane system and transient limits exactly if sixteen times that number
is an integer of 64 bits. The caps per subnet and the water marks are right for every
configuration; and a host that comes up has asked for both managers. -/
theorem connectionLimits_survive_iff (hm : 0 < cfg.maxConnections) :
    Adds (connectionLimitOptions o cfg) fun res l =>
      ((∀ x ∈ l, x.call.KeepsLimits ∧ x.call.KeepsMarks cfg.maxConnections) ↔
        cfg.maxConnections.toInt*16 < 2^63) ∧
      (∀ x ∈ l, x.call.KeepsMarks cfg.maxConnections) ∧
      ∀ opts, res = .ok opts → ∃ limits perAddress low high grace, l.map Entry.call =
        [.newResourceManager limits perAddress,.newConnManager low high grace] := by
  refine (adds_connectionLimitOptions o hm).mono fun res l h => ?_
  have hmarks := h.keepsMarks hm
  refine ⟨?_,hmarks,?_⟩
  · rw [← h.keepsLimits_iff hm]
    exact ⟨fun hall x hx => (hall x hx).1,fun hall x hx => ⟨hall x hx,hmarks x hx⟩⟩
  · rintro opts rfl
    cases h
    exact ⟨_,_,_,_,_,rfl⟩

end Calls

def thousand : Config := ⟨1000,0,0⟩

theorem connectionLimits_survive_thousand :
    0 < thousand.maxConnections ∧
      Adds (connectionLimitOptions (fun _ _ => none) thousand) fun res l =>
        ((∀ x ∈ l, x.call.KeepsLimits ∧ x.call.KeepsMarks thousand.maxConnections) ↔
          thousand.maxConnections.toInt*16 < 2^63) ∧
        (∀ x ∈ l, x.call.KeepsMarks thousand.maxConnections) ∧
        ∀ opts, res = .ok opts → ∃ limits perAddress low high grace, l.map Entry.call =
          [.newResourceManager limits perAddress,.newConnManager low high grace] :=
  ⟨by decide,connectionLimits_survive_iff _ (by decide)⟩

/-- With 2^60 connections the limit on streams has wrapped to zero, which stands for the default,
and the limit on inbound streams to the least integer; however the calls are answered, such
limits are asked for. -/
theorem connectionLimits_wrapped :
    let cfg : Config := ⟨1152921504606846976,0,0⟩
    0 < cfg.maxConnections ∧ ∃ l, limitConfig cfg = some l ∧ l.system.streams = 0 ∧
      l.system.streamsInbound = Int64.minValue ∧ ¬ l.system.Sane ∧
      ∀ o, Adds (connectionLimitOptions o cfg) fun _ l => ∃ x ∈ l, ¬ x.call.KeepsLimits := by
  intro cfg
  have hm : 0 < cfg.maxConnections := by decide
  have hsane : ¬ (resourceLimits cfg.maxConnections).Sane := by
    rw [resourceLimits_sane_iff]
    decide
  refine ⟨hm,_,if_pos hm,by decide,by decide,hsane,?_⟩
  intro o
  refine (adds_connectionLimitOptions o hm).mono fun res l h => ?_
  by_contra hnone
  push Not at hnone
  have hlt := (h.keepsLimits_iff hm).mp hnone
  exact absurd hlt (by decide)

end P2PForge.Host
