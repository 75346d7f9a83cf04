import Mathlib

/-! Bytes as text.
Hexadecimal, base64 with its standard alphabet, and the trimming of white space in UTF-8.
A decoder gives back what the encoder was given; trimming takes off any white space around a
text of graphic ASCII characters and nothing else. -/
namespace P2PForge.TextEncoding

def hexValue (b : UInt8) : Option ℕ :=
  if 48 ≤ b ∧ b ≤ 57 then some (b.toNat - 48)
  else if 97 ≤ b ∧ b ≤ 102 then some (b.toNat - 87)
  else if 65 ≤ b ∧ b ≤ 70 then some (b.toNat - 55)
  else none

def hexDecode : List UInt8 → Option (List UInt8)
  | [] => some []
  | [_] => none
  | a :: b :: rest =>
    match hexValue a,hexValue b with
    | some x,some y => (hexDecode rest).map (UInt8.ofNat (x*16 + y) :: ·)
    | _,_ => none

def hexDigit (n : ℕ) : UInt8 := if n < 10 then UInt8.ofNat (48 + n) else UInt8.ofNat (87 + n)

def hexEncode : List UInt8 → List UInt8
  | [] => []
  | b :: rest => hexDigit (b.toNat / 16) :: hexDigit (b.toNat % 16) :: hexEncode rest

def lower (b : UInt8) : UInt8 := if 65 ≤ b ∧ b ≤ 90 then b + 32 else b

def graphic (b : UInt8) : Bool := 33 ≤ b && b ≤ 126

theorem hexValue_hexDigit : ∀ n < 16, hexValue (hexDigit n) = some n := by decide

theorem graphic_hexDigit : ∀ n < 16, graphic (hexDigit n) = true := by decide

theorem hexValue_lower (b : UInt8) : hexValue (lower b) = hexValue b := by
  revert b
  decide +kernel

theorem graphic_of_lower (b : UInt8) (h : graphic (lower b) = true) : graphic b = true := by
  revert b
  decide +kernel

theorem hexDecode_lower (text : List UInt8) : hexDecode (text.map lower) = hexDecode text := by
  fun_induction hexDecode text with
  | case1 => rfl
  | case2 a => rfl
  | case3 a b rest x y hx hy ih => simp [hexDecode,hexValue_lower,hx,hy,ih]
  | case4 a b rest hnone => simp [hexDecode,hexValue_lower]

theorem hexDecode_hexEncode (l : List UInt8) : hexDecode (hexEncode l) = some l := by
  induction l with
  | nil => rfl
  | cons b rest ih =>
    have hb := b.toNat_lt
    have hbyte : b.toNat / 16*16 + b.toNat % 16 = b.toNat := by omega
    rw [hexEncode,hexDecode,hexValue_hexDigit _ (by omega),hexValue_hexDigit _ (by omega),ih]
    simp [hbyte]

theorem length_hexEncode (l : List UInt8) : (hexEncode l).length = 2*l.length := by
  induction l with
  | nil => rfl
  | cons b rest ih =>
    rw [hexEncode,List.length_cons,List.length_cons,ih,List.length_cons]
    omega

theorem graphic_hexEncode (l : List UInt8) : ∀ b ∈ hexEncode l, graphic b = true := by
  induction l with
  | nil => simp [hexEncode]
  | cons b rest ih =>
    have hb := b.toNat_lt
    simp only [hexEncode,List.forall_mem_cons]
    exact ⟨graphic_hexDigit _ (by omega),graphic_hexDigit _ (by omega),ih⟩

def base64Digit (n : ℕ) : UInt8 :=
  if n < 26 then UInt8.ofNat (65 + n)
  else if n < 52 then UInt8.ofNat (71 + n)
  else if n < 62 then UInt8.ofNat (n - 4)
  else if n = 62 then 43
  else 47

def base64Value (b : UInt8) : Option ℕ :=
  if 65 ≤ b ∧ b ≤ 90 then some (b.toNat - 65)
  else if 97 ≤ b ∧ b ≤ 122 then some (b.toNat - 71)
  else if 48 ≤ b ∧ b ≤ 57 then some (b.toNat + 4)
  else if b = 43 then some 62
  else if b = 47 then some 63
  else none

def base64Pad : UInt8 := 61

def base64Encode : List UInt8 → List UInt8
  | [] => []
  | [a] => [base64Digit (a.toNat / 4),base64Digit (a.toNat % 4*16),base64Pad,base64Pad]
  | [a,b] =>
    [base64Digit (a.toNat / 4),base64Digit (a.toNat % 4*16 + b.toNat / 16),
      base64Digit (b.toNat % 16*4),base64Pad]
  | a :: b :: c :: rest =>
    base64Digit (a.toNat / 4) :: base64Digit (a.toNat % 4*16 + b.toNat / 16) ::
      base64Digit (b.toNat % 16*4 + c.toNat / 64) :: base64Digit (c.toNat % 64) ::
      base64Encode rest

/-- Four characters at a time; padding ends the text, and the bits it stands for are ignored. -/
def base64Quanta : List UInt8 → Option (List UInt8)
  | [] => some []
  | a :: b :: c :: d :: rest =>
    match base64Value a,base64Value b with
    | some x,some y =>
      match base64Value c,base64Value d with
      | some z,some v =>
        (base64Quanta rest).map ([UInt8.ofNat (x*4 + y / 16),UInt8.ofNat (y*16 + z / 4),
          UInt8.ofNat (z*64 + v)] ++ ·)
      | some z,none =>
        if d = base64Pad ∧ rest = [] then
          some [UInt8.ofNat (x*4 + y / 16),UInt8.ofNat (y*16 + z / 4)]
        else none
      | none,_ =>
        if c = base64Pad ∧ d = base64Pad ∧ rest = [] then some [UInt8.ofNat (x*4 + y / 16)]
        else none
    | _,_ => none
  | _ => none

/-- Line ends are skipped wherever they stand. -/
def base64Decode (text : List UInt8) : Option (List UInt8) :=
  base64Quanta (text.filter fun b => b ≠ 10 ∧ b ≠ 13)

theorem base64Value_base64Digit : ∀ n < 64, base64Value (base64Digit n) = some n := by decide

theorem base64Value_base64Pad : base64Value base64Pad = none := by decide

theorem graphic_base64Digit : ∀ n < 64, graphic (base64Digit n) = true := by decide

theorem ofNat_eq_of_mod {n : ℕ} {b : UInt8} (h : n % 256 = b.toNat) : UInt8.ofNat n = b := by
  apply UInt8.toNat_inj.mp
  rw [UInt8.toNat_ofNat']
  exact h

theorem base64Quanta_base64Encode (l : List UInt8) : base64Quanta (base64Encode l) = some l := by
  fun_induction base64Encode l with
  | case1 => rfl
  | case2 a =>
    have ha := a.toNat_lt
    have hfirst : UInt8.ofNat (a.toNat / 4*4 + a.toNat % 4*16 / 16) = a :=
      ofNat_eq_of_mod (by omega)
    simp only [base64Quanta,base64Value_base64Digit _ (show a.toNat / 4 < 64 by omega),
      base64Value_base64Digit _ (show a.toNat % 4*16 < 64 by omega),hfirst]
    rfl
  | case3 a b =>
    have ha := a.toNat_lt
    have hb := b.toNat_lt
    have hfirst : UInt8.ofNat (a.toNat / 4*4 + (a.toNat % 4*16 + b.toNat / 16) / 16) = a :=
      ofNat_eq_of_mod (by omega)
    have hsecond : UInt8.ofNat ((a.toNat % 4*16 + b.toNat / 16)*16 + b.toNat % 16*4 / 4) = b :=
      ofNat_eq_of_mod (by omega)
    simp only [base64Quanta,base64Value_base64Digit _ (show a.toNat / 4 < 64 by omega),
      base64Value_base64Digit _ (show a.toNat % 4*16 + b.toNat / 16 < 64 by omega),
      base64Value_base64Digit _ (show b.toNat % 16*4 < 64 by omega),base64Value_base64Pad,hfirst,
      hsecond]
    rfl
  | case4 a b c rest ih =>
    have ha := a.toNat_lt
    have hb := b.toNat_lt
    have hc := c.toNat_lt
    have hfirst : UInt8.ofNat (a.toNat / 4*4 + (a.toNat % 4*16 + b.toNat / 16) / 16) = a :=
      ofNat_eq_of_mod (by omega)
    have hsecond : UInt8.ofNat ((a.toNat % 4*16 + b.toNat / 16)*16 +
        (b.toNat % 16*4 + c.toNat / 64) / 4) = b := ofNat_eq_of_mod (by omega)
    have hthird : UInt8.ofNat ((b.toNat % 16*4 + c.toNat / 64)*64 + c.toNat % 64) = c :=
      ofNat_eq_of_mod (by omega)
    simp only [base64Quanta,base64Value_base64Digit _ (show a.toNat / 4 < 64 by omega),
      base64Value_base64Digit _ (show a.toNat % 4*16 + b.toNat / 16 < 64 by omega),
      base64Value_base64Digit _ (show b.toNat % 16*4 + c.toNat / 64 < 64 by omega),
      base64Value_base64Digit _ (show c.toNat % 64 < 64 by omega),hfirst,hsecond,hthird,ih]
    rfl

theorem length_base64Encode (l : List UInt8) :
    (base64Encode l).length = (l.length + 2) / 3*4 := by
  fun_induction base64Encode l with
  | case1 => rfl
  | case2 a => simp
  | case3 a b => simp
  | case4 a b c rest ih =>
    simp only [List.length_cons,ih]
    omega

theorem graphic_base64Encode (l : List UInt8) : ∀ b ∈ base64Encode l, graphic b = true := by
  have hpad : graphic base64Pad = true := by decide
  fun_induction base64Encode l with
  | case1 => simp
  | case2 a =>
    have ha := a.toNat_lt
    simp only [List.forall_mem_cons]
    exact ⟨graphic_base64Digit _ (by omega),graphic_base64Digit _ (by omega),hpad,hpad,by simp⟩
  | case3 a b =>
    have ha := a.toNat_lt
    have hb := b.toNat_lt
    simp only [List.forall_mem_cons]
    exact ⟨graphic_base64Digit _ (by omega),graphic_base64Digit _ (by omega),
      graphic_base64Digit _ (by omega),hpad,by simp⟩
  | case4 a b c rest ih =>
    have ha := a.toNat_lt
    have hb := b.toNat_lt
    have hc := c.toNat_lt
    simp only [List.forall_mem_cons]
    exact ⟨graphic_base64Digit _ (by omega),graphic_base64Digit _ (by omega),
      graphic_base64Digit _ (by omega),graphic_base64Digit _ (by omega),ih⟩

theorem not_lineEnd_of_graphic (b : UInt8) (h : graphic b = true) :
    decide (b ≠ 10 ∧ b ≠ 13) = true := by
  revert b
  decide +kernel

theorem base64Decode_base64Encode (l : List UInt8) : base64Decode (base64Encode l) = some l := by
  have hkept : (base64Encode l).filter (fun b => b ≠ 10 ∧ b ≠ 13) = base64Encode l := by
    rw [List.filter_eq_self]
    exact fun b hb => not_lineEnd_of_graphic b (graphic_base64Encode l b hb)
  rw [base64Decode,hkept,base64Quanta_base64Encode]

/-- The encodings of the characters of Unicode that are white space. -/
def spaces : List (List UInt8) :=
  [[9],[10],[11],[12],[13],[32],[0xc2,0x85],[0xc2,0xa0],[0xe1,0x9a,0x80],[0xe2,0x80,0x80],
    [0xe2,0x80,0x81],[0xe2,0x80,0x82],[0xe2,0x80,0x83],[0xe2,0x80,0x84],[0xe2,0x80,0x85],
    [0xe2,0x80,0x86],[0xe2,0x80,0x87],[0xe2,0x80,0x88],[0xe2,0x80,0x89],[0xe2,0x80,0x8a],
    [0xe2,0x80,0xa8],[0xe2,0x80,0xa9],[0xe2,0x80,0xaf],[0xe2,0x81,0x9f],[0xe3,0x80,0x80]]

def trimBy (code : List (List UInt8)) (s : List UInt8) : List UInt8 :=
  match _h : code.find? fun word => word ≠ [] ∧ word <+: s with
  | none => s
  | some word => trimBy code (s.drop word.length)
termination_by s.length
decreasing_by
  obtain ⟨hne,hpre⟩ : word ≠ [] ∧ word <+: s := by simpa using List.find?_some _h
  have hpos := List.length_pos_iff.mpr hne
  have hle := hpre.length_le
  rw [List.length_drop]
  omega

/-- No word of the code begins another one, or is empty. -/
structure PrefixFree (code : List (List UInt8)) : Prop where
  ne_nil : ∀ word ∈ code, word ≠ []
  unique : ∀ word ∈ code, ∀ word' ∈ code, word <+: word' → word = word'

theorem trimBy_of_none {code : List (List UInt8)} {s : List UInt8}
    (h : ∀ word ∈ code, ¬ word <+: s) : trimBy code s = s := by
  rw [trimBy]
  split
  · rfl
  · rename_i word hfind
    obtain ⟨_,hpre⟩ : word ≠ [] ∧ word <+: s := by simpa using List.find?_some hfind
    exact absurd hpre (h word (List.mem_of_find?_eq_some hfind))

theorem PrefixFree.trimBy_append {code : List (List UInt8)} (hcode : PrefixFree code)
    {word : List UInt8} (hword : word ∈ code) (s : List UInt8) :
    trimBy code (word ++ s) = trimBy code s := by
  have hfind : code.find? (fun word' => word' ≠ [] ∧ word' <+: word ++ s) = some word := by
    cases hfound : code.find? fun word' => word' ≠ [] ∧ word' <+: word ++ s with
    | none => simpa [hcode.ne_nil word hword] using List.find?_eq_none.mp hfound word hword
    | some word' =>
      have hword' := List.mem_of_find?_eq_some hfound
      obtain ⟨_,hpre⟩ : word' ≠ [] ∧ word' <+: word ++ s := by simpa using List.find?_some hfound
      rcases List.prefix_or_prefix_of_prefix hpre (List.prefix_append word s) with hle | hge
      · rw [hcode.unique word' hword' word hword hle]
      · rw [hcode.unique word hword word' hword' hge]
  rw [trimBy]
  split
  · rename_i hnone
    rw [hfind] at hnone
    cases hnone
  · rename_i word' hsome
    rw [hfind] at hsome
    obtain rfl := Option.some.inj hsome
    rw [List.drop_left]

theorem PrefixFree.trimBy_flatten {code : List (List UInt8)} (hcode : PrefixFree code)
    {words : List (List UInt8)} (hwords : ∀ word ∈ words, word ∈ code) (s : List UInt8) :
    trimBy code (words.flatten ++ s) = trimBy code s := by
  induction words with
  | nil => rfl
  | cons word words ih =>
    obtain ⟨hword,hwords⟩ := List.forall_mem_cons.mp hwords
    rw [List.flatten_cons,List.append_assoc,hcode.trimBy_append hword,ih hwords]

def trimSpace (s : List UInt8) : List UInt8 :=
  (trimBy (spaces.map List.reverse) (trimBy spaces s).reverse).reverse

def White (s : List UInt8) : Prop :=
  ∃ words : List (List UInt8), (∀ word ∈ words, word ∈ spaces) ∧ s = words.flatten

theorem prefixFree_spaces : PrefixFree spaces := ⟨by decide,by decide⟩

theorem prefixFree_reversed : PrefixFree (spaces.map List.reverse) := ⟨by decide,by decide⟩

theorem White.reverse_eq {s : List UInt8} (h : White s) :
    ∃ words : List (List UInt8), (∀ word ∈ words, word ∈ spaces.map List.reverse) ∧
      s.reverse = words.flatten := by
  obtain ⟨words,hwords,rfl⟩ := h
  refine ⟨(words.map List.reverse).reverse,?_,List.reverse_flatten⟩
  intro word hword
  obtain ⟨word',hword',rfl⟩ := List.mem_map.mp (List.mem_reverse.mp hword)
  exact List.mem_map_of_mem (hwords word' hword')

/-- A graphic character begins no white space, read either way. -/
theorem head_spaces : ∀ word ∈ spaces ++ spaces.map List.reverse,
    word.head?.map graphic = some false := by
  decide +kernel

theorem not_prefix_of_graphic {word : List UInt8}
    (hword : word ∈ spaces ++ spaces.map List.reverse) {b : UInt8} (hb : graphic b = true)
    (s : List UInt8) : ¬ word <+: b :: s := by
  obtain ⟨c,hc,hgraphic⟩ := Option.map_eq_some_iff.mp (head_spaces word hword)
  obtain ⟨rest,rfl⟩ := List.head?_eq_some_iff.mp hc
  intro hpre
  obtain ⟨rfl,_⟩ := List.cons_prefix_cons.mp hpre
  rw [hb] at hgraphic
  cases hgraphic

theorem trimSpace_white {pre text post : List UInt8} (hpre : White pre) (hpost : White post)
    (hne : text ≠ []) (htext : ∀ b ∈ text, graphic b = true) :
    trimSpace (pre ++ text ++ post) = text := by
  obtain ⟨words,hwords,rfl⟩ := hpre
  obtain ⟨words',hwords',hpost'⟩ := hpost.reverse_eq
  have hfront : trimBy spaces (words.flatten ++ text ++ post) = text ++ post := by
    obtain ⟨b,rest,rfl⟩ := List.exists_cons_of_ne_nil hne
    rw [List.append_assoc,prefixFree_spaces.trimBy_flatten hwords]
    refine trimBy_of_none fun word hword => ?_
    exact not_prefix_of_graphic (List.mem_append_left _ hword) (htext b List.mem_cons_self) _
  have hback : trimBy (spaces.map List.reverse) (text ++ post).reverse = text.reverse := by
    rw [List.reverse_append,hpost',prefixFree_reversed.trimBy_flatten hwords']
    obtain ⟨b,rest,hrev⟩ := List.exists_cons_of_ne_nil (List.reverse_ne_nil_iff.mpr hne)
    have hb : b ∈ text := List.mem_reverse.mp (hrev ▸ List.mem_cons_self)
    rw [hrev]
    refine trimBy_of_none fun word hword => ?_
    exact not_prefix_of_graphic (List.mem_append_right _ hword) (htext b hb) _
  rw [trimSpace,hfront,hback,List.reverse_reverse]

end P2PForge.TextEncoding
