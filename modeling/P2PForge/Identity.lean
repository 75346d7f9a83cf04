import P2PForge.Pipeline
import P2PForge.TextEncoding

/-! Identities from seeds.
The seed of an identity may come as such or in a file, raw or as text. Every way ends with the
seed's 32 bytes in the key constructor of libp2p. That constructor takes whole private keys and
no seeds, so that every way ends there with an error. -/
namespace P2PForge

open TextEncoding

abbrev KeyConstructor (Key : Type) := List UInt8 → Except GoErr Key

variable {Key : Type} (unmarshal : KeyConstructor Key)

def loadIdentityFromSeed (seed : List UInt8) : Except GoErr Key :=
  if seed.length ≠ 32 then .error (.other ("seed must be 32 bytes, got " ++ toString seed.length))
  else unmarshal seed

def asSeed (decoded : Option (List UInt8)) : Option (List UInt8) :=
  decoded.filter fun seed => seed.length = 32

def loadIdentityFromFile (readFile : String → Except GoErr (List UInt8)) (path : String) :
    Except GoErr Key :=
  match readFile path with
  | .error e => .error (.wrap "read identity file: " e)
  | .ok data =>
    if data.length = 32 then unmarshal data
    else
      let content := trimSpace data
      match if content.length = 64 then asSeed (hexDecode content) else none with
      | some seed => unmarshal seed
      | none =>
        match if content.length = 44 then asSeed (base64Decode content) else none with
        | some seed => unmarshal seed
        | none => .error (.other
          "invalid identity format: expected 32 raw bytes, 64 hex chars, or 44 base64 chars")

/-- The files that hold a seed: its bytes, or its text, in hexadecimal of either case or in base64,
with white space around it. -/
inductive SeedFile (seed : List UInt8) : List UInt8 → Prop
  | raw : SeedFile seed seed
  | hex {pre text post : List UInt8} : White pre → White post →
    text.map lower = hexEncode seed → SeedFile seed (pre ++ text ++ post)
  | base64 {pre post : List UInt8} : White pre → White post →
    SeedFile seed (pre ++ base64Encode seed ++ post)

def SeedLoads (seed : List UInt8) : Prop :=
  ∃ key, loadIdentityFromSeed unmarshal seed = .ok key ∧
    ∀ readFile path file, readFile path = .ok file → SeedFile seed file →
      loadIdentityFromFile unmarshal readFile path = .ok key

/-- The constructor accepts private keys of 64 bytes, alone or with the public key once more, and
nothing of another length. -/
def WholeKeysOnly : Prop :=
  ∀ data key, unmarshal data = .ok key → data.length = 64 ∨ data.length = 96

variable {unmarshal} {seed : List UInt8}

theorem asSeed_some (hseed : seed.length = 32) : asSeed (some seed) = some seed := by
  simp [asSeed,hseed]

theorem loadIdentityFromFile_of_seedFile (hseed : seed.length = 32)
    {readFile : String → Except GoErr (List UInt8)} {path : String} {file : List UInt8}
    (hread : readFile path = .ok file) (hfile : SeedFile seed file) :
    loadIdentityFromFile unmarshal readFile path = unmarshal seed := by
  rw [loadIdentityFromFile,hread]
  cases hfile with
  | raw => simp [hseed]
  | @hex pre text post hpre hpost htext =>
    have hlen : text.length = 64 := by
      rw [← List.length_map lower,htext,length_hexEncode,hseed]
    have hgraphic : ∀ b ∈ text, graphic b = true := by
      intro b hb
      apply graphic_of_lower
      apply graphic_hexEncode seed
      rw [← htext]
      exact List.mem_map_of_mem hb
    have hcontent := trimSpace_white hpre hpost (List.length_pos_iff.mp (by omega)) hgraphic
    have hdecoded : hexDecode text = some seed := by
      rw [← hexDecode_lower,htext,hexDecode_hexEncode]
    have hfile : (pre ++ text ++ post).length ≠ 32 := by
      rw [List.length_append,List.length_append]
      omega
    simp only [if_neg hfile,hcontent,if_pos hlen,hdecoded,asSeed_some hseed]
  | @base64 pre post hpre hpost =>
    have hlen : (base64Encode seed).length = 44 := by
      rw [length_base64Encode,hseed]
    have hcontent := trimSpace_white hpre hpost (List.length_pos_iff.mp (by omega))
      (graphic_base64Encode seed)
    have hhex : ¬ (base64Encode seed).length = 64 := by omega
    have hfile : (pre ++ base64Encode seed ++ post).length ≠ 32 := by
      rw [List.length_append,List.length_append]
      omega
    simp only [if_neg hfile,hcontent,if_neg hhex,if_pos hlen,base64Decode_base64Encode,
      asSeed_some hseed]

/-- A seed loads every way, and as the same key, exactly if the constructor accepts the seed
itself; the constructor of libp2p accepts none. -/
theorem seedLoads_iff (hseed : seed.length = 32) :
    (SeedLoads unmarshal seed ↔ ∃ key, unmarshal seed = .ok key) ∧
      (WholeKeysOnly unmarshal → ¬ SeedLoads unmarshal seed) := by
  have hdirect : loadIdentityFromSeed unmarshal seed = unmarshal seed := by
    simp [loadIdentityFromSeed,hseed]
  have hiff : SeedLoads unmarshal seed ↔ ∃ key, unmarshal seed = .ok key := by
    refine exists_congr fun key => ?_
    rw [hdirect,and_iff_left_iff_imp]
    intro hkey readFile path file hread hfile
    rw [loadIdentityFromFile_of_seedFile hseed hread hfile,hkey]
  refine ⟨hiff,?_⟩
  intro hwhole hloads
  obtain ⟨key,hkey⟩ := hiff.mp hloads
  rcases hwhole seed key hkey with hlen | hlen <;> omega

/-- A constructor that takes whole keys: 64 bytes, whose second half is the public key, and the
public key perhaps once more. -/
def wholeKey : KeyConstructor (List UInt8) := fun data =>
  if data.length = 64 ∨ data.length = 96 ∧ data.drop 64 = (data.drop 32).take 32 then
    .ok (data.take 64)
  else .error (.other "expected ed25519 data size to be 64 or 96")

theorem wholeKeysOnly_wholeKey : WholeKeysOnly wholeKey := by
  intro data key hkey
  simp only [wholeKey] at hkey
  split_ifs at hkey with hlen
  exact hlen.imp_right And.left

theorem seedLoads_iff_zeros :
    let seed := List.replicate 32 (0 : UInt8)
    seed.length = 32 ∧ (SeedLoads wholeKey seed ↔ ∃ key, wholeKey seed = .ok key) ∧
      ¬ SeedLoads wholeKey seed :=
  ⟨rfl,(seedLoads_iff rfl).1,(seedLoads_iff rfl).2 wholeKeysOnly_wholeKey⟩

/-- The seed of zeros is refused in every form. -/
theorem zeroSeed_refused :
    let seed := List.replicate 32 (0 : UInt8)
    WholeKeysOnly wholeKey ∧
      loadIdentityFromSeed wholeKey seed =
        .error (.other "expected ed25519 data size to be 64 or 96") ∧
      (∀ file ∈ [seed,List.replicate 64 48,List.replicate 43 65 ++ [61]],SeedFile seed file ∧
        loadIdentityFromFile wholeKey (fun _ => .ok file) "" =
          .error (.other "expected ed25519 data size to be 64 or 96")) ∧
      ¬ SeedLoads wholeKey seed := by
  intro seed
  have hblank : White [] := ⟨[],by simp,rfl⟩
  have hhex : SeedFile seed ([] ++ List.replicate 64 48 ++ []) := .hex hblank hblank rfl
  have hbase64 : SeedFile seed ([] ++ base64Encode seed ++ []) := .base64 hblank hblank
  have hdirect : loadIdentityFromSeed wholeKey seed =
    .error (.other "expected ed25519 data size to be 64 or 96") := rfl
  refine ⟨wholeKeysOnly_wholeKey,hdirect,?_,?_⟩
  · intro file hfile
    have hholds : SeedFile seed file := by
      simp only [List.mem_cons,List.not_mem_nil,or_false] at hfile
      rcases hfile with rfl | rfl | rfl
      · exact .raw
      · exact hhex
      · exact hbase64
    exact ⟨hholds,loadIdentityFromFile_of_seedFile rfl rfl hholds⟩
  · rintro ⟨key,hkey,_⟩
    rw [hdirect] at hkey
    cases hkey

end P2PForge
