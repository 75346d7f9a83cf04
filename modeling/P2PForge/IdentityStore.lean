import P2PForge.Identity
import P2PForge.Interleaving

/-! The identity file.
A call that finds no file makes a key and writes it, and others may be anywhere between their own
look at the file and their own write, or may have died there. A file that exists is never written
again, whatever it holds, so that it decides what every later call returns. The calls of a run
agree on their identity if none starts to make a key while another one is at it. -/
namespace P2PForge.IdentityStore

open Interleaving

variable {Key : Type}

abbrev Files := String → Option (List UInt8)

def expandPath (userHomeDir : Except GoErr String) (join : String → String → String)
    (path : String) : String :=
  match path.toList,userHomeDir with
  | '~' :: '/' :: rest,.ok home => join home (String.ofList rest)
  | _,_ => path

/-- What a write at an offset leaves of a file, with zeros where the file did not reach. -/
def writeAt (content : List UInt8) (offset : ℕ) (bytes : List UInt8) : List UInt8 :=
  content.take offset ++ List.replicate (offset - content.length) 0 ++ bytes ++
    content.drop (offset + bytes.length)

inductive Stage (Key : Type)
  | reading
  | generating
  | makingDir (priv : Key)
  | opening (priv : Key) (raw : List UInt8)
  | writing (priv : Key) (raw : List UInt8) (written : ℕ)
  | returned (result : Except GoErr Key)
  | crashed
  deriving DecidableEq

/-- How the system answers a step: that it went well, with an error, with a key, with the number
of bytes it took, or not at all. -/
inductive Answer (Key : Type)
  | ok
  | fails (e : GoErr)
  | key (priv : Key)
  | wrote (count : ℕ)
  | crash

structure Call (Key : Type) where
  path : String
  stage : Stage Key
  deriving DecidableEq

def loadOrCreateIdentity (userHomeDir : Except GoErr String) (join : String → String → String)
    (path : String) : Call Key :=
  ⟨expandPath userHomeDir join path,.reading⟩

def Call.next (c : Call Key) (stage : Stage Key) : Call Key := { c with stage := stage }

def Call.giveUp (c : Call Key) (text : String) (e : GoErr) : Call Key :=
  c.next (.returned (.error (.wrap text e)))

def Stage.creating : Stage Key → Bool
  | .generating | .makingDir _ | .opening _ _ | .writing _ _ _ => true
  | .reading | .returned _ | .crashed => false

section Program

variable (unmarshal : KeyConstructor Key) (marshal : Key → Except GoErr (List UInt8))

def loaded (data : List UInt8) : Except GoErr Key :=
  (unmarshal data).mapError (.wrap "unmarshal identity: ")

def prog (files : Files) (c : Call Key) (a : Answer Key) : Option (Files × Call Key) :=
  match c.stage,a with
  | .returned _,_ | .crashed,_ => none
  | _,.crash => some (files,c.next .crashed)
  | .reading,.fails e => some (files,c.giveUp "read identity: " e)
  | .reading,.ok =>
    match files c.path with
    | some data => some (files,c.next (.returned (loaded unmarshal data)))
    | none => some (files,c.next .generating)
  | .generating,.fails e => some (files,c.giveUp "generate key: " e)
  | .generating,.key priv => some (files,c.next (.makingDir priv))
  | .makingDir _,.fails e => some (files,c.giveUp "create identity dir: " e)
  | .makingDir priv,.ok =>
    match marshal priv with
    | .error e => some (files,c.giveUp "marshal key: " e)
    | .ok raw => some (files,c.next (.opening priv raw))
  | .opening _ _,.fails e => some (files,c.giveUp "save identity: " e)
  -- `os.WriteFile` cuts an existing file down to nothing
  | .opening priv raw,.ok =>
    some (Function.update files c.path (some []),c.next (.writing priv raw 0))
  | .writing priv raw written,.wrote count =>
    let bytes := (raw.drop written).take count
    some (Function.update files c.path
        (some (writeAt ((files c.path).getD []) written bytes)),
      c.next (.writing priv raw (written + bytes.length)))
  -- also when all is written and the file does not close
  | .writing _ _ _,.fails e => some (files,c.giveUp "save identity: " e)
  | .writing priv raw written,.ok =>
    if written = raw.length then some (files,c.next (.returned (.ok priv))) else none
  | _,_ => none

inductive Does (files : Files) (c : Call Key) : Files → Call Key → Prop
  | loads {data : List UInt8} : c.stage = .reading → files c.path = some data →
    Does files c files (c.next (.returned (loaded unmarshal data)))
  | fails {e : GoErr} : c.stage = .reading → Does files c files (c.giveUp "read identity: " e)
  | misses : c.stage = .reading → files c.path = none →
    Does files c files (c.next .generating)
  | dies : Does files c files (c.next .crashed)
  | givesUp {text : String} {e : GoErr} : c.stage.creating = true →
    Does files c files (c.giveUp text e)
  | generates {priv : Key} : c.stage = .generating → Does files c files (c.next (.makingDir priv))
  | marshals {priv : Key} {raw : List UInt8} : c.stage = .makingDir priv →
    marshal priv = .ok raw → Does files c files (c.next (.opening priv raw))
  | opens {priv : Key} {raw : List UInt8} : c.stage = .opening priv raw →
    Does files c (Function.update files c.path (some [])) (c.next (.writing priv raw 0))
  | writes {priv : Key} {raw bytes : List UInt8} {written count : ℕ} :
    c.stage = .writing priv raw written → bytes = (raw.drop written).take count →
    Does files c (Function.update files c.path
        (some (writeAt ((files c.path).getD []) written bytes)))
      (c.next (.writing priv raw (written + bytes.length)))
  | closes {priv : Key} {raw : List UInt8} : c.stage = .writing priv raw raw.length →
    Does files c files (c.next (.returned (.ok priv)))

variable {unmarshal marshal} {files files' : Files} {c c' : Call Key} {a : Answer Key}

theorem does_of_prog (h : prog unmarshal marshal files c a = some (files',c')) :
    Does unmarshal marshal files c files' c' := by
  obtain ⟨path,stage⟩ := c
  cases stage with
  | reading =>
    cases a with
    | ok =>
      simp only [prog] at h
      split at h
      next data hdata =>
        cases h
        exact .loads rfl hdata
      next hnone =>
        cases h
        exact .misses rfl hnone
    | fails e =>
      cases h
      exact .fails rfl
    | crash =>
      cases h
      exact .dies
    | _ => cases h
  | generating =>
    cases a with
    | key priv =>
      cases h
      exact .generates rfl
    | fails e =>
      cases h
      exact .givesUp rfl
    | crash =>
      cases h
      exact .dies
    | _ => cases h
  | makingDir priv =>
    cases a with
    | ok =>
      simp only [prog] at h
      split at h
      next e =>
        cases h
        exact .givesUp rfl
      next raw hraw =>
        cases h
        exact .marshals rfl hraw
    | fails e =>
      cases h
      exact .givesUp rfl
    | crash =>
      cases h
      exact .dies
    | _ => cases h
  | opening priv raw =>
    cases a with
    | ok =>
      cases h
      exact .opens rfl
    | fails e =>
      cases h
      exact .givesUp rfl
    | crash =>
      cases h
      exact .dies
    | _ => cases h
  | writing priv raw written =>
    cases a with
    | ok =>
      simp only [prog] at h
      split_ifs at h with hall
      cases h
      exact .closes (by rw [hall])
    | fails e =>
      cases h
      exact .givesUp rfl
    | wrote count =>
      cases h
      exact .writes rfl rfl
    | crash =>
      cases h
      exact .dies
    | _ => cases h
  | returned result => cases h
  | crashed => cases h

theorem Does.path_eq (h : Does unmarshal marshal files c files' c') : c'.path = c.path := by
  cases h <;> rfl

theorem Does.frame (h : Does unmarshal marshal files c files' c') {path : String}
    (hpath : path ≠ c.path) : files' path = files path := by
  cases h with
  | opens | writes => exact Function.update_of_ne hpath ..
  | _ => rfl

theorem Does.files_eq (h : Does unmarshal marshal files c files' c')
    (hstage : c.stage.creating ≠ true) : files' = files := by
  cases h with
  | opens hat | writes hat =>
    rw [hat] at hstage
    exact absurd rfl hstage
  | _ => rfl

theorem Does.enters (h : Does unmarshal marshal files c files' c')
    (hstage : c.stage.creating ≠ true) (hstage' : c'.stage.creating = true) :
    c.stage = .reading ∧ files c.path = none ∧ c'.stage = .generating := by
  cases h with
  | misses hat hnone => exact ⟨hat,hnone,rfl⟩
  | generates hat | marshals hat | opens hat | writes hat =>
    rw [hat] at hstage
    exact absurd rfl hstage
  | loads | fails | dies | givesUp | closes => cases hstage'

theorem answer_of_generating (h : prog unmarshal marshal files c a = some (files',c'))
    (hat : c.stage = .reading) (hat' : c'.stage = .generating) : a = .ok := by
  obtain ⟨path,stage⟩ := c
  change stage = .reading at hat
  subst hat
  cases a with
  | ok => rfl
  | fails | crash =>
    cases h
    cases hat'
  | key | wrote => cases h

def Begins (join : String → String → String) (e : Event (Call Key) (Answer Key)) : Prop :=
  ∀ c, e = .spawn c → ∃ userHomeDir path, c = loadOrCreateIdentity userHomeDir join path

theorem begins_advance {join : String → String → String} {i : ℕ} {a : Answer Key} :
    Begins join (.advance i a) := by
  intro c hc
  cases hc

def keyBytes : List UInt8 → Except GoErr (List UInt8) := fun key =>
  if key.length = 64 then .ok key else .error (.other "not a key")

def slash (home rest : String) : String := home ++ "/" ++ rest

def homeCall : Call (List UInt8) := loadOrCreateIdentity (.ok "/home") slash "~/id"

theorem begins_homeCall : Begins slash (.spawn homeCall) := by
  rintro c ⟨⟩
  exact ⟨.ok "/home","~/id",rfl⟩

/-- A key's bytes are those of a whole private key, and give it back. -/
structure KeyFormat (unmarshal : KeyConstructor Key) (marshal : Key → Except GoErr (List UInt8)) :
    Prop where
  unmarshals : ∀ {priv raw}, marshal priv = .ok raw → unmarshal raw = .ok priv
  length : ∀ {priv raw}, marshal priv = .ok raw → raw.length = 64
  whole : WholeKeysOnly unmarshal

theorem KeyFormat.whole_of_isPrefix (keys : KeyFormat unmarshal marshal) {priv priv' : Key}
    {raw data : List UInt8} (hraw : marshal priv = .ok raw) (hpart : data <+: raw)
    (hloads : unmarshal data = .ok priv') : data = raw := by
  have hlen := keys.length hraw
  have hle := hpart.length_le
  have hsize := keys.whole _ _ hloads
  exact hpart.eq_of_length (by omega)

theorem keyFormat_wholeKey : KeyFormat wholeKey keyBytes where
  unmarshals := by
    intro priv raw hraw
    simp only [keyBytes] at hraw
    split_ifs at hraw with hlen
    cases hraw
    simp [wholeKey,hlen,List.take_of_length_le]
  length := by
    intro priv raw hraw
    simp only [keyBytes] at hraw
    split_ifs at hraw with hlen
    cases hraw
    exact hlen
  whole := wholeKeysOnly_wholeKey

def sevens : List UInt8 := List.replicate 64 7

section Existing

variable {join : String → String → String} {path : String} {data : List UInt8}

variable (unmarshal) in
/-- The calls that go by the contents of a file that is there. -/
def Follows (data : List UInt8) : Stage Key → Prop
  | .reading | .crashed => True
  | .returned result => result = loaded unmarshal data ∨
    ∃ e, result = .error (.wrap "read identity: " e)
  | _ => False

theorem Follows.not_creating {stage : Stage Key} (h : Follows unmarshal data stage) :
    stage.creating ≠ true := by
  cases stage with
  | reading | returned | crashed => exact Bool.false_ne_true
  | _ => cases h

theorem Does.follows (h : Does unmarshal marshal files c files' c')
    (hfile : files c.path = some data) (hc : Follows unmarshal data c.stage) :
    Follows unmarshal data c'.stage := by
  cases h with
  | loads hat hdata =>
    obtain rfl := Option.some.inj (hfile.symm.trans hdata)
    exact .inl rfl
  | fails => exact .inr ⟨_,rfl⟩
  | misses hat hnone =>
    rw [hfile] at hnone
    cases hnone
  | dies => trivial
  | givesUp hcreating => exact absurd hcreating hc.not_creating
  | generates hat | marshals hat | opens hat | writes hat | closes hat =>
    rw [hat] at hc
    cases hc

def Stage.over : Stage Key → Bool
  | .returned _ | .crashed => true
  | _ => false

theorem prog_of_over (h : c.stage.over = true) : prog unmarshal marshal files c a = none := by
  obtain ⟨path,stage⟩ := c
  cases stage with
  | returned | crashed => rfl
  | _ => cases h

variable (unmarshal) in
/-- A path holds a file, and its calls go by it, those apart that were at their end before. -/
def Existing (old : List (Call Key)) (path : String) (data : List UInt8)
    (sys : System Files (Call Key)) : Prop :=
  sys.shared path = some data ∧
    ∀ (i : ℕ) (c : Call Key), sys.threads[i]? = some c → c.path = path →
      old[i]? = some c ∧ c.stage.over = true ∨ Follows unmarshal data c.stage

theorem existing_step {old : List (Call Key)} {sys : System Files (Call Key)}
    (h : Existing unmarshal old path data sys) {e : Event (Call Key) (Answer Key)}
    (he : Begins join e) :
    Existing unmarshal old path data (step (prog unmarshal marshal) sys e) := by
  obtain ⟨hfile,hcalls⟩ := h
  rcases step_cases (prog unmarshal marshal) sys e with
    hsame | ⟨c,rfl,hstep⟩ | ⟨i,a,c,files',c',rfl,hi,hprog,hstep⟩
  · rw [hsame]
    exact ⟨hfile,hcalls⟩
  · obtain ⟨userHomeDir,given,rfl⟩ := he c rfl
    rw [hstep]
    refine ⟨hfile,?_⟩
    intro j d hj hpath
    rcases getElem?_concat hj with hold | ⟨_,rfl⟩
    · exact hcalls j d hold hpath
    · exact .inr trivial
  · have hdoes := does_of_prog hprog
    -- a call that is at its end takes no step
    have hfollows : c.path = path → Follows unmarshal data c.stage := by
      intro hpath
      refine (hcalls i c hi hpath).resolve_left fun hover => ?_
      rw [prog_of_over hover.2] at hprog
      cases hprog
    rw [hstep]
    constructor
    · by_cases hpath : c.path = path
      · rw [hdoes.files_eq (hfollows hpath).not_creating]
        exact hfile
      · exact (hdoes.frame (Ne.symm hpath)).trans hfile
    · intro j d hj hpath
      rcases getElem?_set_of_some hi hj with ⟨rfl,rfl⟩ | ⟨_,hold⟩
      · rw [hdoes.path_eq] at hpath
        have hdata : sys.shared c.path = some data := hpath ▸ hfile
        exact .inr (hdoes.follows hdata (hfollows hpath))
      · exact hcalls j d hold hpath

/-- What the file makes of the calls that had not returned before: they return what the file
unmarshals to, unless their own read failed. -/
theorem Existing.returned {old : List (Call Key)} {sys : System Files (Call Key)}
    (h : Existing unmarshal old path data sys) {i : ℕ} (hi : sys.threads[i]? = some c)
    (hpath : c.path = path) {result : Except GoErr Key} (hresult : c.stage = .returned result)
    (hnew : old[i]? ≠ some c) :
    result = loaded unmarshal data ∨ ∃ e, result = .error (.wrap "read identity: " e) := by
  have hfollows := (h.2 i c hi hpath).resolve_left fun hold => hnew hold.1
  rw [hresult] at hfollows
  exact hfollows

/-- A file that is there while no call is making it is there for good: no call that comes later
changes it, in any interleaving and wherever calls die, and each one that returns then has what
the file unmarshals to, unless its own read failed. A file that was cut short fails them all. -/
theorem existing_file_decides {sys : System Files (Call Key)} (hfile : sys.shared path = some data)
    (hquiet : ∀ c ∈ sys.threads, c.path = path → c.stage.creating = false)
    {es : List (Event (Call Key) (Answer Key))} (hes : ∀ e ∈ es, Begins join e) :
    let later := run (prog unmarshal marshal) sys es
    later.shared path = some data ∧
      ∀ (i : ℕ) (c : Call Key), later.threads[i]? = some c → c.path = path →
        sys.threads[i]? ≠ some c → ∀ result, c.stage = .returned result →
          (result = loaded unmarshal data ∨ ∃ e, result = .error (.wrap "read identity: " e)) ∧
          (KeyFormat unmarshal marshal → ∀ priv raw, marshal priv = .ok raw → data <+: raw →
            data ≠ raw → ∃ e, result = .error e) := by
  intro later
  have hfirst : Existing unmarshal sys.threads path data sys := by
    refine ⟨hfile,fun i c hi hpath => ?_⟩
    have hstage := hquiet c (List.mem_of_getElem? hi) hpath
    cases hc : c.stage with
    | reading => exact .inr trivial
    | returned | crashed => exact .inl ⟨hi,rfl⟩
    | _ =>
      rw [hc] at hstage
      cases hstage
  have hstep : ∀ now e, Existing unmarshal sys.threads path data now → Begins join e →
      Existing unmarshal sys.threads path data (step (prog unmarshal marshal) now e) :=
    fun now e hnow he => existing_step hnow he
  have hexisting : Existing unmarshal sys.threads path data later := invariant_run hstep hfirst hes
  refine ⟨hexisting.1,?_⟩
  intro i c hi hpath hnew result hresult
  have hreturned := hexisting.returned hi hpath hresult hnew
  refine ⟨hreturned,fun keys priv raw hraw hpart hshort => ?_⟩
  rcases hreturned with rfl | ⟨e,rfl⟩
  · rw [loaded]
    cases hloads : unmarshal data with
    | error e => exact ⟨_,rfl⟩
    | ok key => exact absurd (keys.whole_of_isPrefix hraw hpart hloads) hshort
  · exact ⟨_,rfl⟩

/-- A call has died over the file, with ten bytes of its key written. -/
def cutShort : System Files (Call (List UInt8)) :=
  run (prog wholeKey keyBytes) ⟨fun _ => none,[]⟩ [.spawn homeCall,.advance 0 .ok,
    .advance 0 (.key sevens),.advance 0 .ok,.advance 0 .ok,.advance 0 (.wrote 10),
    .advance 0 .crash]

theorem existing_file_decides_cutShort :
    let later := run (prog wholeKey keyBytes) cutShort [.spawn homeCall,.advance 1 .ok]
    later.shared "/home/id" = some (sevens.take 10) ∧
      ∃ result, later.threads[1]? = some (homeCall.next (.returned result)) ∧
        ∃ e, result = .error e := by
  intro later
  have hquiet : ∀ c ∈ cutShort.threads, c.path = "/home/id" → c.stage.creating = false := by
    decide
  have hes : ∀ e ∈ [.spawn homeCall,.advance 1 .ok], Begins slash e :=
    List.forall_mem_cons.mpr ⟨begins_homeCall,List.forall_mem_singleton.mpr begins_advance⟩
  have hfile : cutShort.shared "/home/id" = some (sevens.take 10) := by decide
  obtain ⟨hkept,hreturned⟩ : later.shared "/home/id" = some (sevens.take 10) ∧ _ :=
    existing_file_decides hfile hquiet hes
  have hsecond : later.threads[1]? = some (homeCall.next (.returned
      (loaded wholeKey (sevens.take 10)))) := by
    decide
  refine ⟨hkept,_,hsecond,?_⟩
  have hnew : cutShort.threads[1]? ≠ some (homeCall.next (.returned
      (loaded wholeKey (sevens.take 10)))) := by
    decide
  have hraw : keyBytes sevens = .ok sevens := by decide
  exact (hreturned 1 _ hsecond rfl hnew _ rfl).2 keyFormat_wholeKey sevens sevens hraw
    (List.take_prefix 10 sevens) (by decide)

end Existing

section Creating

variable (marshal) in
/-- What a call that is making the file relies on. -/
def Relies (files : Files) (c : Call Key) : Prop :=
  match c.stage with
  | .generating | .makingDir _ => files c.path = none
  | .opening priv raw => files c.path = none ∧ marshal priv = .ok raw
  | .writing priv raw written => files c.path = some (raw.take written) ∧
    marshal priv = .ok raw ∧ written ≤ raw.length
  | _ => True

variable (unmarshal) in
/-- The key a call has returned is the one in the file. -/
def Stored (files : Files) (c : Call Key) : Prop :=
  ∀ priv, c.stage = .returned (.ok priv) →
    ∃ data, files c.path = some data ∧ unmarshal data = .ok priv

variable (marshal) in
def creation : Monitor Files (Call Key) String where
  name c := c.path
  inside c := c.stage.creating = true
  rely files c := Relies marshal files c
  idle _ _ := True

theorem writeAt_take {raw : List UInt8} {written : ℕ} (hle : written ≤ raw.length) (count : ℕ) :
    writeAt (raw.take written) written ((raw.drop written).take count) =
      raw.take (written + ((raw.drop written).take count).length) := by
  have hlen : (raw.take written).length = written := List.length_take_of_le hle
  have hrest : (raw.take written).drop (written + ((raw.drop written).take count).length) = [] :=
    List.drop_of_length_le (by omega)
  rw [writeAt,hlen,hrest,Nat.sub_self,List.replicate_zero,List.append_nil,List.append_nil,
    List.take_take,min_self,List.take_add,List.length_take,← List.take_eq_take_min]

theorem Relies.congr (hc : Relies marshal files c) (hfiles : files' c.path = files c.path) :
    Relies marshal files' c := by
  unfold Relies at hc ⊢
  rw [hfiles]
  exact hc

theorem Does.relies (h : Does unmarshal marshal files c files' c')
    (hc : Relies marshal files c) : Relies marshal files' c' := by
  unfold Relies at hc
  cases h with
  | misses hat hnone => exact hnone
  | generates hat =>
    rw [hat] at hc
    exact hc
  | marshals hat hraw =>
    rw [hat] at hc
    exact ⟨hc,hraw⟩
  | opens hat =>
    rw [hat] at hc
    exact ⟨Function.update_self ..,hc.2,Nat.zero_le _⟩
  | @writes priv raw bytes written count hat hbytes =>
    rw [hat] at hc
    obtain ⟨hfile,hraw,hle⟩ := hc
    subst hbytes
    refine ⟨?_,hraw,?_⟩
    · change Function.update files c.path _ c.path = _
      rw [Function.update_self,hfile,Option.getD_some,writeAt_take hle]
    · rw [List.length_take,List.length_drop]
      omega
  | loads | fails | dies | givesUp | closes => trivial

theorem Does.stored (keys : KeyFormat unmarshal marshal)
    (h : Does unmarshal marshal files c files' c') (hc : Relies marshal files c) :
    Stored unmarshal files' c' := by
  intro priv hreturned
  cases h with
  | @loads data hat hdata =>
    refine ⟨data,hdata,?_⟩
    cases hkey : unmarshal data with
    | error e =>
      rw [Call.next,loaded,hkey] at hreturned
      cases hreturned
    | ok key =>
      rw [Call.next,loaded,hkey] at hreturned
      cases hreturned
      rfl
  | @closes key raw hat =>
    cases hreturned
    unfold Relies at hc
    rw [hat] at hc
    obtain ⟨hfile,hraw,_⟩ := hc
    rw [List.take_length] at hfile
    exact ⟨raw,hfile,keys.unmarshals hraw⟩
  | _ => cases hreturned

theorem Does.stored_other (keys : KeyFormat unmarshal marshal)
    (h : Does unmarshal marshal files c files' c') (hc : Relies marshal files c)
    {d : Call Key} (hd : Stored unmarshal files d) : Stored unmarshal files' d := by
  intro priv hreturned
  obtain ⟨data,hdata,hkey⟩ := hd priv hreturned
  by_cases hpath : d.path = c.path
  · rw [hpath] at hdata ⊢
    unfold Relies at hc
    cases h with
    | opens hat =>
      rw [hat,hdata] at hc
      cases hc.1
    | @writes key raw bytes written count hat hbytes =>
      rw [hat,hdata] at hc
      obtain ⟨hfile,hraw,hle⟩ := hc
      obtain rfl := Option.some.inj hfile
      -- the file was whole before, so that nothing is left to write
      have hwhole := List.take_eq_self_iff raw |>.mp
        (keys.whole_of_isPrefix hraw (List.take_prefix written raw) hkey)
      subst hbytes
      refine ⟨raw.take written,?_,hkey⟩
      rw [Function.update_self,hdata,Option.getD_some,writeAt_take hle,
        List.drop_of_length_le hwhole,List.take_nil,List.length_nil,Nat.add_zero]
    | _ => exact ⟨data,hdata,hkey⟩
  · exact ⟨data,(h.frame hpath).trans hdata,hkey⟩

variable (marshal unmarshal) in
/-- No two calls make the same file, and what was returned is stored. -/
structure Consistent (sys : System Files (Call Key)) : Prop where
  alone : (creation marshal).Alone sys.threads
  kept : (creation marshal).Kept sys.shared sys.threads
  stored : ∀ c ∈ sys.threads, Stored unmarshal sys.shared c

def Stage.looking : Stage Key → Bool
  | .reading => true
  | _ => false

/-- A call is about to find that there is no file, while another one is making it. -/
def overlaps (sys : System Files (Call Key)) : Event (Call Key) (Answer Key) → Bool
  | .advance i .ok => (sys.threads[i]?).any fun c =>
    c.stage.looking && (sys.shared c.path).isNone &&
      sys.threads.any fun d => d.path == c.path && d.stage.creating
  | _ => false

theorem not_creating_of_overlaps {sys : System Files (Call Key)} {i : ℕ}
    (h : overlaps sys (.advance i .ok) = false) (hi : sys.threads[i]? = some c)
    (hat : c.stage = .reading) (hnone : sys.shared c.path = none) :
    ∀ d ∈ sys.threads, d.path = c.path → d.stage.creating ≠ true := by
  intro d hd hpath
  simp only [overlaps,hi,Option.any_some,hat,Stage.looking,hnone,Option.isNone_none,Bool.true_and,
    List.any_eq_false] at h
  have hother := h d hd
  simpa [hpath] using hother

namespace Consistent

variable {join : String → String → String} {sys : System Files (Call Key)}
  (v : Consistent unmarshal marshal sys)
include v

theorem relies (hc : c ∈ sys.threads) : Relies marshal sys.shared c := by
  obtain ⟨i,hi⟩ := List.getElem?_of_mem hc
  by_cases hcreating : c.stage.creating = true
  · exact v.kept.rely hi hcreating
  · unfold Relies
    split <;> simp_all [Stage.creating]

theorem spawn (hc : c.stage = .reading) :
    Consistent unmarshal marshal { sys with threads := sys.threads ++ [c] } := by
  have hout : ¬ (creation marshal).inside c := by
    change ¬ c.stage.creating = true
    rw [hc]
    exact Bool.false_ne_true
  refine ⟨?_,v.kept.spawn hout,?_⟩
  · intro i j d d' hi hj hname hd hd'
    rcases getElem?_concat hi with hold | ⟨_,rfl⟩
    · rcases getElem?_concat hj with hold' | ⟨_,rfl⟩
      · exact v.alone hold hold' hname hd hd'
      · exact absurd hd' hout
    · exact absurd hd hout
  · intro d hd
    rcases List.mem_append.mp hd with hold | hnew
    · exact v.stored d hold
    · rw [List.mem_singleton.mp hnew]
      intro priv hreturned
      rw [hc] at hreturned
      cases hreturned

theorem alone_advance {i : ℕ} (hi : sys.threads[i]? = some c)
    (h : Does unmarshal marshal sys.shared c files' c')
    (hapart : c.stage = .reading → sys.shared c.path = none → c'.stage = .generating →
      ∀ d ∈ sys.threads, d.path = c.path → d.stage.creating ≠ true) :
    (creation marshal).Alone (sys.threads.set i c') := by
  -- whoever makes the file beside the call that moves keeps it from starting
  have hother : ∀ {j : ℕ} {d}, j ≠ i → sys.threads[j]? = some d → d.path = c'.path →
      d.stage.creating = true → c'.stage.creating ≠ true := by
    intro j d hji hj hpath hd hc'
    rw [h.path_eq] at hpath
    by_cases hc : c.stage.creating = true
    · exact hji (v.alone hj hi hpath hd hc)
    · obtain ⟨hat,hnone,hat'⟩ := h.enters hc hc'
      exact hapart hat hnone hat' d (List.mem_of_getElem? hj) hpath hd
  intro j k d d' hj hk hname hd hd'
  rcases getElem?_set_of_some hi hj with ⟨rfl,rfl⟩ | ⟨hji,hold⟩ <;>
    rcases getElem?_set_of_some hi hk with ⟨rfl,rfl⟩ | ⟨hki,hold'⟩
  · rfl
  · exact absurd hd (hother hki hold' hname.symm hd')
  · exact absurd hd' (hother hji hold hname hd)
  · exact v.alone hold hold' hname hd hd'

theorem advance (keys : KeyFormat unmarshal marshal) {i : ℕ} (hi : sys.threads[i]? = some c)
    (h : Does unmarshal marshal sys.shared c files' c')
    (hapart : c.stage = .reading → sys.shared c.path = none → c'.stage = .generating →
      ∀ d ∈ sys.threads, d.path = c.path → d.stage.creating ≠ true) :
    Consistent unmarshal marshal ⟨files',sys.threads.set i c'⟩ := by
  have halone : (creation marshal).Alone (sys.threads.set i c') := v.alone_advance hi h hapart
  have hc := v.relies (List.mem_of_getElem? hi)
  refine ⟨halone,?_,?_⟩
  · apply v.kept.advance hi v.alone halone h.path_eq
    · intro d _ hother hd
      apply Relies.congr hd
      rcases hother with hne | hout
      · exact h.frame hne
      · rw [h.files_eq hout]
    · exact fun _ _ _ => trivial
    · exact fun _ _ _ => h.relies hc
    · exact fun _ _ => ⟨fun _ => h.relies hc,fun _ => trivial⟩
  · intro d hd
    rcases List.mem_or_eq_of_mem_set hd with hold | rfl
    · exact h.stored_other keys hc (v.stored d hold)
    · exact h.stored keys hc

theorem step_of_not_overlaps (keys : KeyFormat unmarshal marshal)
    {e : Event (Call Key) (Answer Key)} (he : Begins join e ∧ overlaps sys e = false) :
    Consistent unmarshal marshal (step (prog unmarshal marshal) sys e) := by
  rcases step_cases (prog unmarshal marshal) sys e with
    hsame | ⟨c,rfl,hstep⟩ | ⟨i,a,c,files',c',rfl,hi,hprog,hstep⟩
  · rwa [hsame]
  · obtain ⟨userHomeDir,path,rfl⟩ := he.1 c rfl
    rw [hstep]
    exact v.spawn rfl
  · rw [hstep]
    apply v.advance keys hi (does_of_prog hprog)
    intro hat hnone hat'
    obtain rfl := answer_of_generating hprog hat hat'
    exact not_creating_of_overlaps he.2 hi hat hnone

end Consistent

/-- The calls of a run agree: if none starts to make a file while another one is at it, every key
that was returned for a path is the one in the file at the end, and so the same for all. -/
theorem identities_agree (keys : KeyFormat unmarshal marshal) {join : String → String → String}
    {files : Files} {es : List (Event (Call Key) (Answer Key))}
    (hes : EachStep (prog unmarshal marshal)
      (fun sys e => Begins join e ∧ overlaps sys e = false) ⟨files,[]⟩ es)
    {c d : Call Key} (hc : c ∈ (run (prog unmarshal marshal) ⟨files,[]⟩ es).threads)
    (hd : d ∈ (run (prog unmarshal marshal) ⟨files,[]⟩ es).threads) (hpath : d.path = c.path)
    {priv priv' : Key} (hpriv : c.stage = .returned (.ok priv))
    (hpriv' : d.stage = .returned (.ok priv')) :
    priv' = priv ∧ ∃ data,
      (run (prog unmarshal marshal) ⟨files,[]⟩ es).shared c.path = some data ∧
        unmarshal data = .ok priv := by
  have hfirst : Consistent unmarshal marshal (⟨files,[]⟩ : System Files (Call Key)) := by
    refine ⟨?_,⟨?_,?_⟩,?_⟩
    · intro i j l l' hi
      cases hi
    · intro i l hi
      cases hi
    · exact fun _ => trivial
    · exact fun l hl => absurd hl List.not_mem_nil
  have hrun : Consistent unmarshal marshal (run (prog unmarshal marshal) ⟨files,[]⟩ es) :=
    invariant_of_eachStep (fun sys e v he => v.step_of_not_overlaps keys he) hfirst hes
  obtain ⟨data,hdata,hkey⟩ := hrun.stored c hc priv hpriv
  obtain ⟨data',hdata',hkey'⟩ := hrun.stored d hd priv' hpriv'
  rw [hpath] at hdata'
  obtain rfl := Option.some.inj (hdata.symm.trans hdata')
  exact ⟨Except.ok.inj (hkey'.symm.trans hkey),data,hdata,hkey⟩

def creates (i : ℕ) (priv : List UInt8) : List (Event (Call (List UInt8)) (Answer (List UInt8))) :=
  [.advance i .ok,.advance i (.key priv),.advance i .ok,.advance i .ok,.advance i (.wrote 64),
    .advance i .ok]

def restart : List (Event (Call (List UInt8)) (Answer (List UInt8))) :=
  .spawn homeCall :: creates 0 sevens ++ [.spawn homeCall,.advance 1 .ok]

theorem identities_agree_restart :
    let sys := run (prog wholeKey keyBytes) ⟨fun _ => none,[]⟩ restart
    sys.threads[0]? = some (homeCall.next (.returned (.ok sevens))) ∧
      sys.threads[1]? = some (homeCall.next (.returned (.ok sevens))) ∧ sevens = sevens ∧ ∃ data,
        sys.shared homeCall.path = some data ∧ wholeKey data = .ok sevens := by
  have hfirst : (run (prog wholeKey keyBytes) ⟨fun _ => none,[]⟩ restart).threads[0]? =
      some (homeCall.next (.returned (.ok sevens))) := by
    decide
  have hsecond : (run (prog wholeKey keyBytes) ⟨fun _ => none,[]⟩ restart).threads[1]? =
      some (homeCall.next (.returned (.ok sevens))) := by
    decide
  have hes : EachStep (prog wholeKey keyBytes)
      (fun sys e => Begins slash e ∧ overlaps sys e = false) ⟨fun _ => none,[]⟩ restart :=
    ⟨⟨begins_homeCall,by decide⟩,⟨begins_advance,by decide⟩,⟨begins_advance,by decide⟩,
      ⟨begins_advance,by decide⟩,⟨begins_advance,by decide⟩,⟨begins_advance,by decide⟩,
      ⟨begins_advance,by decide⟩,⟨begins_homeCall,by decide⟩,⟨begins_advance,by decide⟩,trivial⟩
  exact ⟨hfirst,hsecond,identities_agree keyFormat_wholeKey hes (List.mem_of_getElem? hfirst)
    (List.mem_of_getElem? hsecond) rfl rfl rfl⟩

/-- Two calls that overlap return a key each; the file keeps the one written last. -/
example : let first := List.replicate 64 (1 : UInt8)
    let second := List.replicate 64 (2 : UInt8)
    let sys := run (prog wholeKey keyBytes) ⟨fun _ => none,[]⟩ ([.spawn homeCall,.spawn homeCall,
      .advance 0 .ok] ++ creates 1 second ++ (creates 0 first).tail)
    sys.threads.map (fun c => match c.stage with | .returned (.ok key) => key | _ => []) =
      [first,second] ∧ sys.shared "/home/id" = some first := by
  decide

end Creating
end Program
end P2PForge.IdentityStore
