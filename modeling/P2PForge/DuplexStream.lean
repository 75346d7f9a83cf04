import P2PForge.ByteStream

/-! Streams in two directions.
One state is read from and written to, and either may fail at any point. On a steady stream
neither does before the bytes are at their end. -/
namespace P2PForge

namespace Reader

variable {σ β : Type} {r : Reader σ} {f : σ → β}

structure Keeps (r : Reader σ) (f : σ → β) : Prop where
  read : ∀ s k, f (r.read s k).next = f s
  deadline : ∀ set ∈ r.setReadDeadline, ∀ d s, f (set d s) = f s

theorem Keeps.readAtLeast (h : r.Keeps f) (got : List UInt8) (missing : ℕ) (s : σ) :
    f (r.readAtLeast got missing s).next = f s := by
  fun_induction Reader.readAtLeast r got missing s with
  | case1 => rfl
  | case2 got missing s hpos herr ih => exact ih.trans (h.read s missing)
  | case3 got missing s hpos e herr hfull => exact h.read s missing
  | case4 got missing s hpos e herr hshort => exact h.read s missing

theorem Keeps.readFull (h : r.Keeps f) (k : ℕ) (s : σ) : f (r.readFull k s).next = f s :=
  h.readAtLeast [] k s

def Carries.Prompt (c : r.Carries) : Prop :=
  ∀ set ∈ r.setReadDeadline, ∀ d s, c.Agrees c (set d s) s

end Reader

/-- A stream that is read from and written to. Reading leaves alone what was written. -/
structure Duplex (ρ : Type) where
  reader : Reader ρ
  writer : Writer ρ
  records : writer.Records
  keeps : reader.Keeps records.written

namespace Duplex

variable {ρ σ τ : Type}

/-- A reset takes back nothing that was written. -/
def Resets (d : Duplex ρ) (reset : ρ → ρ) : Prop :=
  ∀ x, d.records.written (reset x) = d.records.written x

theorem Resets.iterate {d : Duplex ρ} {reset : ρ → ρ} (h : d.Resets reset) (n : ℕ) (x : ρ) :
    d.records.written (reset^[n] x) = d.records.written x := by
  induction n generalizing x with
  | zero => rfl
  | succ n ih => exact (ih (reset x)).trans (h x)

/-- A stream that carries its bytes in both directions: no write fails, and no deadline cuts a
read short. -/
structure Steady (d : Duplex ρ) where
  carries : d.reader.Carries
  prompt : carries.Prompt
  neverFails : d.writer.NeverFails

def join (r : Reader σ) {w : Writer τ} (d : w.Records) : Duplex (σ × τ) where
  reader := {
    read := fun s k => ⟨(r.read s.1 k).bytes,(r.read s.1 k).err,((r.read s.1 k).next,s.2)⟩
    setReadDeadline := r.setReadDeadline.map fun set d s => (set d s.1,s.2)
    delay := fun s => r.delay s.1
    read_le := fun s => r.read_le s.1
    delay_lt := fun s => r.delay_lt s.1 }
  writer := {
    write := fun t b => ⟨(w.write t.2 b).taken,(w.write t.2 b).err,(t.1,(w.write t.2 b).next)⟩
    setWriteDeadline := w.setWriteDeadline.map fun set d t => (t.1,set d t.2)
    write_le := fun t => w.write_le t.2
    write_short := fun t => w.write_short t.2 }
  records := {
    written := fun t => d.written t.2
    write_written := fun t => d.write_written t.2
    deadline_written := by
      intro set hset
      obtain ⟨inner,hinner,rfl⟩ := Option.mem_map.mp hset
      exact fun _ t => d.deadline_written inner hinner _ t.2 }
  keeps := {
    read := fun _ _ => rfl
    deadline := by
      intro set hset
      obtain ⟨inner,_,rfl⟩ := Option.mem_map.mp hset
      exact fun _ _ => rfl }

def steady_join {r : Reader σ} (c : r.Carries) (hc : c.Prompt) {w : Writer τ} (d : w.Records)
    (hw : w.NeverFails) : (join r d).Steady where
  carries := {
    pending := fun s => c.pending s.1
    fault := fun s => c.fault s.1
    read_pending := fun s => c.read_pending s.1
    read_fault := fun s => c.read_fault s.1
    read_err := fun s => c.read_err s.1 }
  prompt := by
    intro set hset
    obtain ⟨inner,hinner,rfl⟩ := Option.mem_map.mp hset
    exact fun d s => hc inner hinner d s.1
  neverFails := fun t b => hw t.2 b

end Duplex
end P2PForge
