import P2PForge.Clock

/-! Byte streams under the contracts of Go's `io` package.
A reader hands out its stream in pieces of its own choosing, may now and then hand out
nothing at all, and may report its last error together with the last piece or after it.
A writer may stop short, and then says why. Nothing here knows what the bytes mean. -/
namespace P2PForge

inductive StreamErr
  | eof | unexpectedEOF | other (text : String)
  deriving DecidableEq

def StreamErr.error : StreamErr → String
  | .eof => "EOF"
  | .unexpectedEOF => "unexpected EOF"
  | .other text => text

structure Fetch (σ : Type) where
  bytes : List UInt8
  err : Option StreamErr
  next : σ

/-- An `io.Reader` with state `σ`. Only finitely many reads in a row may return neither a
byte nor an error; `delay` bounds how many are still to come. A deadline counts from the
reading of the stream's own clock, which is part of the state. -/
structure Reader (σ : Type) where
  read : σ → ℕ → Fetch σ
  setReadDeadline : Option (Duration → σ → σ)
  delay : σ → ℕ
  read_le : ∀ s k, (read s k).bytes.length ≤ k
  delay_lt : ∀ s k, 0 < k → (read s k).bytes = [] → (read s k).err = none →
    delay (read s k).next < delay s

/-- The error `io.ReadAtLeast` reports for a read that ended early with `e`. -/
def shortfall (got : List UInt8) (e : StreamErr) : StreamErr :=
  if got ≠ [] ∧ e = .eof then .unexpectedEOF else e

namespace Reader

variable {σ : Type} (r : Reader σ)

/-- The loop of `io.ReadAtLeast`, with `got` in the buffer and `missing` bytes to go. -/
def readAtLeast (got : List UInt8) (missing : ℕ) (s : σ) : Fetch σ :=
  if _ : missing = 0 then ⟨got,none,s⟩
  else
    match _ : (r.read s missing).err with
    | none =>
      readAtLeast (got ++ (r.read s missing).bytes) (missing - (r.read s missing).bytes.length)
        (r.read s missing).next
    | some e =>
      if missing ≤ (r.read s missing).bytes.length then
        ⟨got ++ (r.read s missing).bytes,none,(r.read s missing).next⟩
      else
        ⟨got ++ (r.read s missing).bytes,some (shortfall (got ++ (r.read s missing).bytes) e),
          (r.read s missing).next⟩
termination_by (missing,r.delay s)
decreasing_by
  rename_i hpos herr
  by_cases hnil : (r.read s missing).bytes = []
  · rw [hnil,List.length_nil,Nat.sub_zero]
    exact Prod.Lex.right _ (r.delay_lt s missing (Nat.pos_of_ne_zero hpos) hnil herr)
  · have hlen := List.length_pos_iff.mpr hnil
    exact Prod.Lex.left _ _ (by omega)

def readFull (k : ℕ) (s : σ) : Fetch σ := r.readAtLeast [] k s

theorem readAtLeast_length (got : List UInt8) (missing : ℕ) (s : σ) :
    (r.readAtLeast got missing s).bytes.length ≤ got.length + missing ∧
      ((r.readAtLeast got missing s).err = none ↔
        (r.readAtLeast got missing s).bytes.length = got.length + missing) := by
  fun_induction readAtLeast r got missing s with
  | case1 => simp
  | case2 got missing s hpos herr ih =>
    have hle := r.read_le s missing
    rw [List.length_append] at ih
    rw [show got.length + missing = got.length + (r.read s missing).bytes.length +
      (missing - (r.read s missing).bytes.length) by omega]
    exact ih
  | case3 got missing s hpos e herr hfull =>
    have hle := r.read_le s missing
    simp only [List.length_append,true_iff]
    omega
  | case4 got missing s hpos e herr hshort =>
    simp only [List.length_append,reduceCtorEq,false_iff]
    omega

theorem readFull_err_eq_none (k : ℕ) (s : σ) :
    (r.readFull k s).err = none ↔ (r.readFull k s).bytes.length = k := by
  simpa [readFull] using (r.readAtLeast_length [] k s).2

/-- A reading of the states of `r` as streams: the bytes still to come and the error behind
them. The reader may split the bytes as it likes and loses or invents none. -/
structure Carries where
  pending : σ → List UInt8
  fault : σ → StreamErr
  read_pending : ∀ s k, pending s = (r.read s k).bytes ++ pending (r.read s k).next
  read_fault : ∀ s k, fault (r.read s k).next = fault s
  read_err : ∀ s k e, (r.read s k).err = some e → e = fault s ∧ pending (r.read s k).next = []

namespace Carries

variable {r} (c : r.Carries)

theorem readAtLeast_enough (got : List UInt8) (missing : ℕ) (s : σ)
    (h : missing ≤ (c.pending s).length) :
    (r.readAtLeast got missing s).bytes = got ++ (c.pending s).take missing ∧
      (r.readAtLeast got missing s).err = none ∧
      c.pending (r.readAtLeast got missing s).next = (c.pending s).drop missing ∧
      c.fault (r.readAtLeast got missing s).next = c.fault s := by
  fun_induction readAtLeast r got missing s with
  | case1 => simp
  | case2 got missing s hpos herr ih =>
    have hle := r.read_le s missing
    have hsplit := c.read_pending s missing
    have hlen := congrArg List.length hsplit
    rw [List.length_append] at hlen
    obtain ⟨hbytes,hnone,hpending,hfault⟩ := ih (by omega)
    refine ⟨?_,hnone,?_,hfault.trans (c.read_fault s missing)⟩
    · rw [hbytes,hsplit,List.take_append,List.take_of_length_le hle,List.append_assoc]
    · rw [hpending,hsplit,List.drop_append,List.drop_of_length_le hle,List.nil_append]
  | case3 got missing s hpos e herr hfull =>
    have hle := r.read_le s missing
    have hsplit := c.read_pending s missing
    refine ⟨?_,rfl,?_,c.read_fault s missing⟩
    · rw [hsplit,List.take_append,List.take_of_length_le hle]
      simp [hfull]
    · rw [hsplit,List.drop_append,List.drop_of_length_le hle]
      simp [hfull]
  | case4 got missing s hpos e herr hshort =>
    -- an error with nothing behind it and too few bytes before it
    have hlen := congrArg List.length (c.read_pending s missing)
    rw [(c.read_err s missing e herr).2] at hlen
    simp only [List.append_nil] at hlen
    omega

theorem readAtLeast_short (got : List UInt8) (missing : ℕ) (s : σ)
    (h : (c.pending s).length < missing) :
    (r.readAtLeast got missing s).err = some (shortfall (got ++ c.pending s) (c.fault s)) ∧
      c.pending (r.readAtLeast got missing s).next = [] ∧
      c.fault (r.readAtLeast got missing s).next = c.fault s := by
  fun_induction readAtLeast r got missing s with
  | case1 => simp at h
  | case2 got missing s hpos herr ih =>
    have hsplit := c.read_pending s missing
    have hlen := congrArg List.length hsplit
    rw [List.length_append] at hlen
    obtain ⟨herror,hpending,hfault⟩ := ih (by omega)
    refine ⟨?_,hpending,hfault.trans (c.read_fault s missing)⟩
    rw [herror,hsplit,List.append_assoc,c.read_fault s missing]
  | case3 got missing s hpos e herr hfull =>
    have hlen := congrArg List.length (c.read_pending s missing)
    rw [List.length_append] at hlen
    omega
  | case4 got missing s hpos e herr hshort =>
    obtain ⟨he,hnil⟩ := c.read_err s missing e herr
    have hsplit := c.read_pending s missing
    rw [hnil,List.append_nil] at hsplit
    exact ⟨by rw [hsplit,he],hnil,c.read_fault s missing⟩

theorem pending_of_readFull {k : ℕ} {s : σ} (h : (r.readFull k s).err = none) :
    c.pending s = (r.readFull k s).bytes ++ c.pending (r.readFull k s).next ∧
      c.fault (r.readFull k s).next = c.fault s := by
  unfold Reader.readFull at h ⊢
  by_cases hk : k ≤ (c.pending s).length
  · obtain ⟨hbytes,_,hpending,hfault⟩ := c.readAtLeast_enough [] k s hk
    rw [hbytes,hpending,List.nil_append,List.take_append_drop]
    exact ⟨rfl,hfault⟩
  · have herr := (c.readAtLeast_short [] k s (Nat.not_le.mp hk)).1
    rw [herr] at h
    cases h

theorem readFull_of_pending {b rest : List UInt8} {s : σ} (h : c.pending s = b ++ rest) :
    (r.readFull b.length s).bytes = b ∧ (r.readFull b.length s).err = none ∧
      c.pending (r.readFull b.length s).next = rest ∧
      c.fault (r.readFull b.length s).next = c.fault s := by
  have hlen : b.length ≤ (c.pending s).length := by simp [h]
  have hfull := c.readAtLeast_enough [] b.length s hlen
  simpa [Reader.readFull,h] using hfull

theorem readFull_short {k : ℕ} {s : σ} (h : (c.pending s).length < k) :
    (r.readFull k s).err = some (shortfall (c.pending s) (c.fault s)) :=
  (c.readAtLeast_short [] k s h).1

/-- Two states with the same stream behind them, of readers that may split it differently. -/
def Agrees {σ' : Type} {r' : Reader σ'} (c' : r'.Carries) (s : σ) (s' : σ') : Prop :=
  c.pending s = c'.pending s' ∧ c.fault s = c'.fault s'

/-- A full read depends on the stream only, not on how it is split. -/
theorem readFull_agrees {σ' : Type} {r' : Reader σ'} {c' : r'.Carries} {s : σ} {s' : σ'}
    (h : c.Agrees c' s s') (k : ℕ) :
    (r.readFull k s).err = (r'.readFull k s').err ∧
      ((r.readFull k s).err = none → (r.readFull k s).bytes = (r'.readFull k s').bytes) ∧
      c.Agrees c' (r.readFull k s).next (r'.readFull k s').next := by
  obtain ⟨hpending,hfault⟩ := h
  unfold Reader.readFull Agrees
  by_cases hk : k ≤ (c.pending s).length
  · obtain ⟨hb,he,hp,hf⟩ := c.readAtLeast_enough [] k s hk
    obtain ⟨hb',he',hp',hf'⟩ := c'.readAtLeast_enough [] k s' (hpending ▸ hk)
    refine ⟨?_,fun _ => ?_,?_,?_⟩
    · rw [he,he']
    · rw [hb,hb',hpending]
    · rw [hp,hp',hpending]
    · rw [hf,hf',hfault]
  · obtain ⟨he,hp,hf⟩ := c.readAtLeast_short [] k s (Nat.not_le.mp hk)
    obtain ⟨he',hp',hf'⟩ := c'.readAtLeast_short [] k s' (hpending ▸ Nat.not_le.mp hk)
    refine ⟨?_,fun hnone => absurd (he.symm.trans hnone) (by simp),?_,?_⟩
    · rw [he,he',hpending,hfault]
    · rw [hp,hp']
    · rw [hf,hf',hfault]

end Carries

end Reader

/-- A stream cut into fragments in advance. A read returns at most one of them, an empty one
as no bytes and no error; an `eager` stream reports its error with the last fragment. -/
structure Fragments where
  pieces : List (List UInt8)
  fault : StreamErr
  eager : Bool

namespace Fragments

def read (f : Fragments) (k : ℕ) : Fetch Fragments :=
  match f.pieces with
  | [] => ⟨[],some f.fault,f⟩
  | piece :: rest =>
    if piece.length ≤ k then
      ⟨piece,if f.eager ∧ rest = [] then some f.fault else none,{ f with pieces := rest }⟩
    else ⟨piece.take k,none,{ f with pieces := piece.drop k :: rest }⟩

theorem read_length_le (f : Fragments) (k : ℕ) : (f.read k).bytes.length ≤ k := by
  fun_cases read f k with
  | case1 => simp
  | case2 piece rest _ hle => exact hle
  | case3 piece rest _ hlt => exact List.length_take_le k piece

def reader : Reader Fragments where
  read := read
  setReadDeadline := none
  delay f := f.pieces.length
  read_le := read_length_le
  delay_lt f k hk := by
    fun_cases read f k with
    | case1 => simp
    | case2 piece rest hpieces hle => simp [hpieces]
    | case3 piece rest hpieces hlt =>
      intro hnil
      have hlen := congrArg List.length hnil
      simp only [List.length_take,List.length_nil] at hlen
      omega

def carries : reader.Carries where
  pending f := f.pieces.flatten
  fault f := f.fault
  read_pending f k := by
    change _ = (read f k).bytes ++ (read f k).next.pieces.flatten
    fun_cases read f k with
    | case1 hpieces => simp
    | case2 piece rest hpieces hle => simp [hpieces]
    | case3 piece rest hpieces hlt => simp [hpieces,← List.append_assoc]
  read_fault f k := by
    change (read f k).next.fault = _
    fun_cases read f k <;> rfl
  read_err f k e := by
    change (read f k).err = some e → _ ∧ (read f k).next.pieces.flatten = []
    fun_cases read f k with
    | case1 hpieces => simp [hpieces,eq_comm]
    | case2 piece rest hpieces hle =>
      intro herr
      obtain ⟨⟨_,hrest⟩,rfl⟩ : (f.eager = true ∧ rest = []) ∧ f.fault = e := by
        simpa only [Option.ite_none_right_eq_some,Option.some.injEq] using herr
      exact ⟨rfl,by simp [hrest]⟩
    | case3 piece rest hpieces hlt => simp

end Fragments

structure Receipt (τ : Type) where
  taken : ℕ
  err : Option StreamErr
  next : τ

/-- An `io.Writer` with state `τ`: a write that takes too few bytes reports an error. -/
structure Writer (τ : Type) where
  write : τ → List UInt8 → Receipt τ
  setWriteDeadline : Option (Duration → τ → τ)
  write_le : ∀ t b, (write t b).taken ≤ b.length
  write_short : ∀ t b, (write t b).taken < b.length → (write t b).err ≠ none

namespace Writer

variable {τ : Type} (w : Writer τ)

/-- A reading of the states of `w` as the bytes written so far. -/
structure Records where
  written : τ → List UInt8
  write_written : ∀ t b, written (w.write t b).next = written t ++ b.take (w.write t b).taken
  deadline_written : ∀ set ∈ w.setWriteDeadline, ∀ d t, written (set d t) = written t

def NeverFails : Prop := ∀ t b, (w.write t b).err = none

variable {w} (c : w.Records)

theorem Records.written_of_err_eq_none {t : τ} {b : List UInt8} (h : (w.write t b).err = none) :
    c.written (w.write t b).next = c.written t ++ b := by
  have htaken : b.length ≤ (w.write t b).taken := by
    by_contra hlt
    exact w.write_short t b (Nat.not_le.mp hlt) h
  rw [c.write_written,List.take_of_length_le htaken]

variable (w)

/-- Writes without an error and new deadlines lead from one state to another, and the writes take
the given bytes. -/
inductive Takes (t : τ) : List UInt8 → τ → Prop
  | refl : Takes t [] t
  | deadline {b : List UInt8} {u : τ} {set : Duration → τ → τ} (d : Duration) :
    Takes t b u → set ∈ w.setWriteDeadline → Takes t b (set d u)
  | write {b b' : List UInt8} {u : τ} :
    Takes t b u → (w.write u b').err = none → Takes t (b ++ b') (w.write u b').next

/-- After `sent`, of `whole` only `part` is written: the write of a piece of it fails. -/
def Breaks (t : τ) (sent whole part : List UInt8) (cause : StreamErr) (out : τ) : Prop :=
  ∃ before piece u, w.Takes t (sent ++ before) u ∧ before ++ piece <+: whole ∧
    (w.write u piece).err = some cause ∧ out = (w.write u piece).next ∧
    part = before ++ piece.take (w.write u piece).taken

variable {w}

theorem Takes.trans {t u v : τ} {b b' : List UInt8} (h : w.Takes t b u) (h' : w.Takes u b' v) :
    w.Takes t (b ++ b') v := by
  induction h' with
  | refl => rwa [List.append_nil]
  | deadline d _ hset ih => exact ih.deadline d hset
  | write _ herr ih =>
    rw [← List.append_assoc]
    exact ih.write herr

theorem Takes.written {t u : τ} {b : List UInt8} (h : w.Takes t b u) :
    c.written u = c.written t ++ b := by
  induction h with
  | refl => rw [List.append_nil]
  | @deadline b u set d _ hset ih => rw [c.deadline_written set hset d u,ih]
  | write _ herr ih => rw [c.written_of_err_eq_none herr,ih,List.append_assoc]

section Breaks

variable {t out : τ} {sent whole part : List UInt8} {cause : StreamErr}

theorem Breaks.written (h : w.Breaks t sent whole part cause out) :
    c.written out = c.written t ++ sent ++ part := by
  obtain ⟨before,piece,u,htakes,_,_,rfl,rfl⟩ := h
  rw [c.write_written,htakes.written c]
  simp only [List.append_assoc]

theorem Breaks.isPrefix (h : w.Breaks t sent whole part cause out) : part <+: whole := by
  obtain ⟨before,piece,u,_,hpiece,_,_,rfl⟩ := h
  exact ((List.prefix_append_right_inj _).mpr (List.take_prefix _ _)).trans hpiece

theorem Breaks.after {t₀ : τ} {b : List UInt8} (h : w.Takes t₀ b t)
    (hbreaks : w.Breaks t sent whole part cause out) :
    w.Breaks t₀ (b ++ sent) whole part cause out := by
  obtain ⟨before,piece,u,htakes,hpiece,herr,hout,hpart⟩ := hbreaks
  refine ⟨before,piece,u,?_,hpiece,herr,hout,hpart⟩
  rw [List.append_assoc]
  exact h.trans htakes

/-- What was written of a whole counts as sent, or as a part of it. -/
theorem Breaks.within (h : w.Breaks t sent whole part cause out) :
    w.Breaks t [] (sent ++ whole) (sent ++ part) cause out := by
  obtain ⟨before,piece,u,htakes,hpiece,herr,hout,rfl⟩ := h
  refine ⟨sent ++ before,piece,u,htakes,?_,herr,hout,(List.append_assoc ..).symm⟩
  rw [List.append_assoc]
  exact (List.prefix_append_right_inj _).mpr hpiece

theorem NeverFails.not_breaks (h : w.NeverFails) : ¬ w.Breaks t sent whole part cause out := by
  rintro ⟨_,piece,u,_,_,herr,_⟩
  rw [h u piece] at herr
  cases herr

end Breaks

end Writer

def bufferWriter : Writer (List UInt8) where
  write t b := ⟨b.length,none,t ++ b⟩
  setWriteDeadline := none
  write_le _ _ := le_rfl
  write_short _ _ h := absurd h (lt_irrefl _)

def bufferWriter.records : bufferWriter.Records where
  written t := t
  write_written t b := by simp [bufferWriter]
  deadline_written := by simp [bufferWriter]

theorem bufferWriter.neverFails : bufferWriter.NeverFails := fun _ _ => rfl

end P2PForge
