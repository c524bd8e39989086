import Zgmos.Kustd.Numbers

-- Formatted output.

namespace Zgmos.Kustd

-- A string without its terminating zero.
structure CString where
  chars   : List Byte
  nonzero : 0 ∉ chars

-- The arguments that are in a `va_list`. The first one is an `int`.
inductive Arg
  | int (value : BitVec 32)
  | long (value : BitVec 64)
  | ulong (value : BitVec 64)
  | string (s : CString)

-- What `v_sprintf` distinguishes of the character after a `%`.
inductive Directive
  | d | l | x | s | percent | other
  deriving DecidableEq

def percent : Byte :=
  0x25

def directive : Option Byte → Directive
  | some 0x64 => .d
  | some 0x6c => .l
  | some 0x78 => .x
  | some 0x73 => .s
  | some 0x25 => .percent
  | _         => .other

-- Copies the memory at `src` up to the first zero. Behind the list there is no memory.
def strcpy (dest : Buffer) (pos : Nat) : (src : List Byte) → Except Fault Buffer
  | []       => throw .outOfBounds
  | c :: src => do
    let dest ← put dest pos c
    if c = 0 then return dest else strcpy dest (pos + 1) src

def strlen : List Byte → Except Fault Nat
  | []       => throw .outOfBounds
  | c :: str => if c = 0 then return 0 else return (← strlen str) + 1

-- The string of an argument and its position in `str`. `number` is the buffer of the digits.
structure Output where
  str    : Buffer
  pos    : Nat
  number : Buffer

namespace Output

def emit (o : Output) (c : Byte) : Except Fault Output :=
  return { o with str := ← put o.str o.pos c, pos := o.pos + 1 }

def copy (o : Output) (src : List Byte) : Except Fault Output :=
  return { o with str := ← strcpy o.str o.pos src, pos := o.pos + (← strlen src) }

def integer (o : Output) (value : BitVec 64) : Except Fault Output := do
  let number ← itoa value o.number 10
  { o with number }.copy number

def hex : List Byte :=
  [0x30, 0x78]

-- The prefix and the digits are copied one after the other.
def unsigned (o : Output) (value : BitVec 64) : Except Fault Output := do
  let number ← utoa value o.number 16
  let str ← strcpy o.str o.pos (hex ++ [0])
  let str ← strcpy str (o.pos + 2) number
  return { str, number, pos := o.pos + ((← strlen number) + 2) }

end Output

-- The loop of `v_sprintf`. An argument of another type than that of the directive is not a value of this type.
def formatLoop (o : Output) : (format : List Byte) → (ap : List Arg) → Except Fault (Buffer × Nat)
  | [], _            => return (← put o.str o.pos 0, o.pos)
  | ch :: format, ap =>
    if ch = percent then
      match directive format.head?, ap with
      | .d, .int value :: ap   => do formatLoop (← o.integer <| value.signExtend 64) format.tail ap
      | .l, .long value :: ap  => do formatLoop (← o.integer value) format.tail ap
      | .x, .ulong value :: ap => do formatLoop (← o.unsigned value) format.tail ap
      | .s, .string s :: ap    => do formatLoop (← o.copy <| s.chars ++ [0]) format.tail ap
      | .percent, ap           => do formatLoop (← o.emit percent) format.tail ap
      | .other, ap             => do formatLoop (← o.emit ch) format ap
      | _, _                   => throw .wildPointer
    else do
      formatLoop (← o.emit ch) format ap
termination_by format => format.length

-- A local buffer with arbitrary contents.
abbrev Local (n : Nat) := { buffer : Buffer // buffer.length = n }

def vSprintf (str : Buffer) (number : Local 30) (format : CString) (ap : List Arg) : Except Fault (Buffer × Nat) :=
  formatLoop ⟨str, 0, number⟩ format.chars ap

-- The characters that are passed to `out_func`. Behind a buffer without a zero the loop does not stop.
def vPrintfCallback (buf : Local 256) (number : Local 30) (format : CString) (ap : List Arg) :
    Except Fault (Nat × List Byte) := do
  let (buf, ret) ← vSprintf buf number format ap
  if 0 ∈ buf then return (ret, cstring buf) else throw .outOfBounds

-- What a format string consists of, together with its arguments.
inductive Piece
  | char (c : Byte)
  | number (value : BitVec 64)
  | hex (value : BitVec 64)
  | string (s : CString)

-- The arguments are of the kinds which the format string demands if there is a result.
def pieces : (format : List Byte) → (ap : List Arg) → Option (List Piece)
  | [], _            => some []
  | ch :: format, ap =>
    if ch = percent then
      match directive format.head?, ap with
      | .d, .int value :: ap   => (pieces format.tail ap).map (.number (value.signExtend 64) :: ·)
      | .l, .long value :: ap  => (pieces format.tail ap).map (.number value :: ·)
      | .x, .ulong value :: ap => (pieces format.tail ap).map (.hex value :: ·)
      | .s, .string s :: ap    => (pieces format.tail ap).map (.string s :: ·)
      | .percent, ap           => (pieces format.tail ap).map (.char percent :: ·)
      | .other, ap             => (pieces format ap).map (.char ch :: ·)
      | _, _                   => none
    else
      (pieces format ap).map (.char ch :: ·)
termination_by format => format.length

def numeralWidth (b n : Nat) : Nat :=
  max 1 (Nat.digits b n).length

namespace Piece

-- The number of characters of a piece.
def width : Piece → Nat
  | char _       => 1
  | number value => (if value.toInt < 0 then 1 else 0) + numeralWidth 10 (abs <| value.truncate 32).toInt.natAbs
  | hex value    => 2 + numeralWidth 16 value.toNat
  | string s     => s.chars.length

def write (o : Output) : Piece → Except Fault Output
  | char c       => o.emit c
  | number value => o.integer value
  | hex value    => o.unsigned value
  | string s     => o.copy <| s.chars ++ [0]

def ten : Base :=
  ⟨10, by decide⟩

def sixteen : Base :=
  ⟨16, by decide⟩

def text : Piece → List Byte
  | char c       => [c]
  | number value => (if value.toInt < 0 then [minus] else []) ++ signedText ten (abs <| value.truncate 32).toInt
  | hex value    => Output.hex ++ signedText sixteen value.toNat
  | string s     => s.chars

end Piece

-- What is wanted of `v_printf_callback`: Nothing is written behind the buffers, and the string of `v_sprintf` is
-- passed on.
def Prints (buf : Local 256) (number : Local 30) (format : CString) (ap : List Arg) : Prop :=
  ∃ str ret, vSprintf buf number format ap = .ok (str, ret) ∧ 0 ∈ str ∧ (cstring str).length = ret ∧
    vPrintfCallback buf number format ap = .ok (ret, cstring str)

variable {format : List Byte} {ap : List Arg} {ps : List Piece} {p : Piece} {o : Output}
  {out pre post rest tail text number : List Byte}

-- An iteration of the loop.
theorem formatLoop_cons {ch : Byte} (h : pieces (ch :: format) ap = some ps) :
    ∃ p ps' format' ap', ps = p :: ps' ∧ pieces format' ap' = some ps' ∧ format' <:+ format ∧
      (∀ c, p = .char c → c = ch) ∧ ∀ o, formatLoop o (ch :: format) ap = p.write o >>= fun o => formatLoop o format' ap' := by
  unfold pieces at h
  split at h
  case isFalse hc =>
    have ⟨ps', h', he⟩ := Option.map_eq_some_iff.mp h
    refine ⟨_, _, _, _, he.symm, h', List.suffix_refl _, by simp, fun o => ?_⟩
    conv => lhs; unfold formatLoop
    rw [if_neg hc]
    rfl
  case isTrue hc =>
    split at h
    case h_7 => cases h
    all_goals
      have ⟨ps', h', he⟩ := Option.map_eq_some_iff.mp h
      refine ⟨_, _, _, _, he.symm, h', by simp [List.tail_suffix], by simp [hc], fun o => ?_⟩
      conv => lhs; unfold formatLoop
      rw [if_pos hc]
      simp only [*]
      rfl

-- The loop writes the pieces one after the other.
theorem formatLoop_eq (h : pieces format ap = some ps) :
    formatLoop o format ap = (ps.foldlM Piece.write o >>= fun o => return (← put o.str o.pos 0, o.pos)) := by
  induction hl : format.length using Nat.strong_induction_on generalizing format ap ps o
  case h n hi =>
    cases format
    case nil =>
      rw [pieces] at h
      cases h
      rw [formatLoop]
      rfl
    case cons ch format =>
      have ⟨p, ps', format', ap', he, h', hle, _, hs⟩ := formatLoop_cons h
      have hlt : format'.length < n := hl ▸ Nat.lt_succ_of_le hle.length_le
      rw [hs, he, List.foldlM_cons, bind_assoc]
      congr 1
      funext o
      exact hi _ hlt h' rfl

theorem strcpy_append (pre post tail : List Byte) (h : 0 ∉ text) : strcpy (pre ++ post) pre.length (text ++ 0 :: tail) =
    if text.length < post.length then
      .ok (pre ++ text ++ 0 :: post.drop (text.length + 1))
    else
      .error .outOfBounds := by
  induction text generalizing pre post
  case nil =>
    cases post
    case nil         => simp [strcpy, put_end, bind, Except.bind]
    case cons c post => simp [strcpy, put_append, bind, Except.bind, pure, Except.pure]
  case cons c text hi =>
    have hc : c ≠ 0 := fun he => h <| he ▸ .head _
    cases post
    case nil => simp [strcpy, put_end, bind, Except.bind]
    case cons c' post =>
      have hi := hi (pre ++ [c]) post fun hm => h <| .tail _ hm
      rw [List.length_append, List.length_singleton, List.append_assoc, List.singleton_append] at hi
      simp only [strcpy, List.cons_append, put_append, bind, Except.bind, hc, if_false, hi]
      simp

theorem strlen_append (tail : List Byte) (h : 0 ∉ text) : strlen (text ++ 0 :: tail) = .ok text.length := by
  induction text
  case nil => rfl
  case cons c text hi =>
    have hc : c ≠ 0 := fun he => h <| he ▸ .head _
    simp only [List.cons_append, strlen, hc, if_false, hi fun hm => h <| .tail _ hm, bind, Except.bind]
    rfl

theorem length_signedText_eq : (signedText base n).length = numeralWidth base n.natAbs := by
  rw [length_signedText, numeralWidth]
  split_ifs
  case pos hn => simp [hn]
  case neg hn =>
    have : (Nat.digits base n.natAbs).length ≠ 0 := by simpa [Nat.digits_ne_nil_iff_ne_zero] using hn
    omega

namespace Piece

theorem length_text (p : Piece) : p.text.length = p.width := by
  cases p
  case char   => rfl
  case string => rfl
  case number value =>
    simp only [text, width, List.length_append, length_signedText_eq]
    split_ifs <;> rfl
  case hex value =>
    simp only [text, width, List.length_append, length_signedText_eq]
    rfl

end Piece

-- The output so far and the rest of the buffer.
def Output.at (out rest number : List Byte) : Output :=
  ⟨out ++ rest, out.length, number⟩

theorem copy_eq (out rest number tail : List Byte) (h : 0 ∉ text) : (Output.at out rest number).copy (text ++ 0 :: tail) =
    if text.length < rest.length then
      .ok (.at (out ++ text) (0 :: rest.drop (text.length + 1)) number)
    else
      .error .outOfBounds := by
  simp only [Output.copy, Output.at, strcpy_append out rest tail h, strlen_append tail h]
  split_ifs
  case pos => simp [bind, Except.bind, pure, Except.pure]
  case neg => rfl

-- A text in the buffer of the digits.
theorem length_written (hn : number.length = 30) (ht : text.length < 30) :
    (text ++ 0 :: number.drop (text.length + 1)).length = 30 := by
  simp only [List.length_append, List.length_cons, List.length_drop, hn]
  omega

theorem numeralWidth_le {b k m : Nat} (hb : 1 < b) (hk : 0 < k) (hm : m < b ^ k) : numeralWidth b m ≤ k :=
  max_le hk <| (Nat.digits_length_le_iff hb m).mpr hm

theorem natAbs_abs_le (v : BitVec 32) : (abs v).toInt.natAbs ≤ 2 ^ 31 := by
  have hl := @BitVec.le_toInt 32 v
  have hu := @BitVec.toInt_lt 32 v
  rw [abs_toInt]
  split_ifs <;> omega

-- The digits always fit into their buffer.

theorem itoa_ten (value : BitVec 64) (hn : number.length = 30) :
    ∃ number', number'.length = 30 ∧ 0 ∉ Piece.text (.number value) ∧
    itoa value number 10 = .ok number' ∧ ∃ tail, number' = Piece.text (.number value) ++ 0 :: tail := by
  have ht : Piece.text (.number value) = (if Piece.ten.val = 10 ∧ value.toInt < 0 then [minus] else []) ++
      signedText Piece.ten (abs <| value.truncate 32).toInt := by simp [Piece.text, Piece.ten]
  have hw : numeralWidth 10 (abs <| value.truncate 32).toInt.natAbs ≤ 10 :=
    numeralWidth_le (by decide) (by decide) <| (natAbs_abs_le _).trans_lt <| by decide
  have hl : (Piece.text <| .number value).length < 30 := by
    rw [Piece.length_text, Piece.width]
    split_ifs <;> omega
  have he := itoa_writes value Piece.ten number
  rw [← ht] at he
  exact ⟨_, length_written hn hl, ht ▸ zero_notMem_sign zero_notMem_signedText, he <| hn ▸ hl, _, rfl⟩

theorem utoa_sixteen (value : BitVec 64) (hn : number.length = 30) : ∃ number', number'.length = 30 ∧
    utoa value number 16 = .ok number' ∧ ∃ tail, number' = signedText Piece.sixteen value.toNat ++ 0 :: tail := by
  have hw : numeralWidth 16 value.toNat ≤ 16 := numeralWidth_le (by decide) (by decide) value.isLt
  have hl : (signedText Piece.sixteen value.toNat).length < 30 := by
    rw [length_signedText_eq]
    exact hw.trans_lt <| by decide
  exact ⟨_, length_written hn hl, utoa_writes value Piece.sixteen number <| hn ▸ hl, _, rfl⟩

theorem integer_eq (out rest : List Byte) (value : BitVec 64) (hn : number.length = 30) : ∃ number', number'.length = 30 ∧
    (Output.at out rest number).integer value =
      if Piece.width (.number value) < rest.length then
        .ok (.at (out ++ Piece.text (.number value)) (0 :: rest.drop (Piece.width (.number value) + 1)) number')
      else
        .error .outOfBounds := by
  have ⟨number', hl, hz, he, tail, ht⟩ := itoa_ten value hn
  refine ⟨number', hl, ?_⟩
  rw [Output.integer, ← Piece.length_text, ← copy_eq out rest number' tail hz, ← ht]
  simp only [Output.at, he]
  rfl

theorem unsigned_eq (out rest : List Byte) (value : BitVec 64) (hn : number.length = 30) : ∃ number', number'.length = 30 ∧
    (Output.at out rest number).unsigned value =
      if Piece.width (.hex value) < rest.length then
        .ok (.at (out ++ Piece.text (.hex value)) (0 :: rest.drop (Piece.width (.hex value) + 1)) number')
      else
        .error .outOfBounds := by
  have ⟨number', hl, he, tail, ht⟩ := utoa_sixteen value hn
  refine ⟨number', hl, ?_⟩
  have hw : Piece.width (.hex value) = (signedText Piece.sixteen value.toNat).length + 2 := by
    rw [← Piece.length_text, Piece.text, List.length_append]
    exact Nat.add_comm ..
  have hx := @strcpy_append Output.hex out rest [] (by decide)
  have hy := strcpy_append (out ++ Output.hex) (0 :: rest.drop 3) tail <|
    @zero_notMem_signedText Piece.sixteen value.toNat
  have hs := strlen_append tail <| @zero_notMem_signedText Piece.sixteen value.toNat
  have hlen : Output.hex.length = 2 := rfl
  rw [← ht] at hy hs
  rw [List.length_append, hlen] at hy
  rw [hlen] at hx
  rw [hw]
  simp only [Output.unsigned, Output.at, he, bind, Except.bind, hx]
  by_cases hr : 2 < rest.length
  case neg => rw [if_neg hr, if_neg (by omega)]
  case pos =>
    have hc : (signedText Piece.sixteen value.toNat).length < (0 :: rest.drop 3).length ↔
        (signedText Piece.sixteen value.toNat).length + 2 < rest.length := by
      rw [List.length_cons, List.length_drop]
      omega
    simp only [if_pos hr, hy, hs, hc]
    split_ifs
    case neg => rfl
    case pos =>
      simp only [pure, Except.pure, Piece.text, List.length_append, hlen, List.append_assoc, List.drop_succ_cons,
        List.drop_drop, Nat.add_assoc, Nat.add_comm 2, Nat.add_comm 3]

namespace Piece

theorem write_ok (out : List Byte) (hn : number.length = 30) (h : p.width < rest.length) :
    ∃ rest' number', number'.length = 30 ∧
    rest'.length + p.width = rest.length ∧ p.write (.at out rest number) = .ok (.at (out ++ p.text) rest' number') := by
  have hl (c : Byte) : (c :: rest.drop (p.width + 1)).length + p.width = rest.length := by
    simp only [List.length_cons, List.length_drop]
    omega
  cases p
  case number value =>
    have ⟨number', hn', he⟩ := integer_eq out rest value hn
    exact ⟨_, number', hn', hl 0, he.trans <| if_pos h⟩
  case hex value =>
    have ⟨number', hn', he⟩ := unsigned_eq out rest value hn
    exact ⟨_, number', hn', hl 0, he.trans <| if_pos h⟩
  case string s => exact ⟨_, number, hn, hl 0, (copy_eq _ _ _ _ s.nonzero).trans <| if_pos h⟩
  case char c =>
    cases rest
    case nil => cases h
    case cons c' rest =>
      refine ⟨rest, number, hn, rfl, ?_⟩
      simp [write, Output.emit, Output.at, put_append, text, bind, Except.bind, pure, Except.pure]

-- A piece which does not fit leaves no room for the terminating zero.
theorem write_full (out : List Byte) (hn : number.length = 30) (h : rest.length ≤ p.width) :
    p.write (.at out rest number) = .error .outOfBounds ∨
      ∃ out' number', number'.length = 30 ∧ p.write (.at out rest number) = .ok (.at out' [] number') := by
  cases p
  case number value =>
    have ⟨_, _, he⟩ := integer_eq out rest value hn
    exact .inl <| he.trans <| if_neg h.not_gt
  case hex value =>
    have ⟨_, _, he⟩ := unsigned_eq out rest value hn
    exact .inl <| he.trans <| if_neg h.not_gt
  case string s => exact .inl <| (copy_eq _ _ _ _ s.nonzero).trans <| if_neg h.not_gt
  case char c =>
    cases rest
    case nil => exact .inl <| by simp [write, Output.emit, Output.at, put_end, bind, Except.bind]
    case cons c' rest =>
      have he : rest = [] := List.eq_nil_of_length_eq_zero <| by simpa [width] using h
      refine .inr ⟨out ++ [c], number, hn, ?_⟩
      simp [he, write, Output.emit, Output.at, put_append, bind, Except.bind, pure, Except.pure]

theorem foldlM_write (out : List Byte) (hn : number.length = 30) (h : (ps.map width).sum < rest.length) : ∃ rest' number',
    rest'.length + (ps.map width).sum = rest.length ∧
      ps.foldlM write (.at out rest number) = .ok (.at (out ++ ps.flatMap Piece.text) rest' number') := by
  induction ps generalizing out rest number
  case nil => exact ⟨rest, number, rfl, by simp [pure, Except.pure]⟩
  case cons p ps hi =>
    rw [List.map_cons, List.sum_cons] at h ⊢
    have ⟨rest₁, number₁, hn₁, hl₁, he₁⟩ := write_ok (p := p) out hn <| (Nat.le_add_right ..).trans_lt h
    have hlt : (ps.map width).sum < rest₁.length := by omega
    have ⟨rest₂, number₂, hl₂, he₂⟩ := hi (out ++ p.text) hn₁ hlt
    refine ⟨rest₂, number₂, by omega, ?_⟩
    rw [List.foldlM_cons, he₁, List.flatMap_cons, ← List.append_assoc]
    exact he₂

theorem foldlM_full (out : List Byte) (hn : number.length = 30) (h : rest.length ≤ (ps.map width).sum) :
    (ps.foldlM write (.at out rest number) >>= fun o => return (← put o.str o.pos 0, o.pos)) =
      .error .outOfBounds := by
  induction ps generalizing out rest number
  case nil =>
    have hr : rest = [] := List.eq_nil_of_length_eq_zero <| Nat.le_zero.mp h
    simp [hr, Output.at, put_end, bind, Except.bind, pure, Except.pure]
  case cons p ps hi =>
    rw [List.map_cons, List.sum_cons] at h
    rw [List.foldlM_cons]
    cases Nat.lt_or_ge p.width rest.length
    case inl hlt =>
      have ⟨rest', number', hn', hl, he⟩ := write_ok out hn hlt
      rw [he]
      exact hi _ hn' (by omega)
    case inr hge =>
      cases write_full out hn hge
      case inl he =>
        rw [he]
        rfl
      case inr he =>
        have ⟨out', number', hn', he⟩ := he
        rw [he]
        exact hi _ hn' (Nat.zero_le _)

theorem zero_notMem_text (h : ∀ c, p = .char c → c ≠ 0) : 0 ∉ p.text := by
  cases p
  case char c   => simpa [text] using (h c rfl).symm
  case number   => exact zero_notMem_sign zero_notMem_signedText
  case hex v    => simpa [text, Output.hex] using zero_notMem_signedText
  case string s => exact s.nonzero

end Piece

-- The characters are those of the format string.
theorem mem_of_char_mem {c : Byte} (h : pieces format ap = some ps) (hc : .char c ∈ ps) : c ∈ format := by
  induction hl : format.length using Nat.strong_induction_on generalizing format ap ps
  case h n hi =>
    cases format
    case nil =>
      rw [pieces] at h
      cases h
      cases hc
    case cons ch format =>
      have ⟨p, ps', format', ap', he, h', hle, hp, _⟩ := formatLoop_cons h
      have hlt : format'.length < n := hl ▸ Nat.lt_succ_of_le hle.length_le
      cases List.mem_cons.mp <| he ▸ hc
      case inl hc => exact hp c hc.symm ▸ .head _
      case inr hc => exact .tail _ <| hle.subset <| hi _ hlt h' hc rfl

theorem vSprintf_eq {format : CString} (buf : Buffer) (number : Local 30) (h : pieces format.chars ap = some ps) :
    vSprintf buf number format ap =
      (ps.foldlM Piece.write (.at [] buf number) >>= fun o => return (← put o.str o.pos 0, o.pos)) :=
  formatLoop_eq h

theorem not_prints {buf : Local 256} {number : Local 30} {format : CString} (h : pieces format.chars ap = some ps)
    (hle : 256 ≤ (ps.map Piece.width).sum) : ¬Prints buf number format ap := by
  intro ⟨_, _, he, _⟩
  have hf := Piece.foldlM_full [] number.property <| buf.property.le.trans hle
  rw [vSprintf_eq _ _ h, hf] at he
  cases he

-- The output is confined to the buffers iff it is shorter than the buffer of the string.
theorem prints_iff (buf : Local 256) (number : Local 30) (format : CString) (ap : List Arg)
    (h : pieces format.chars ap = some ps) : Prints buf number format ap ↔ (ps.map Piece.width).sum < 256 := by
  constructor
  case mp =>
    intro hp
    by_contra hlt
    exact not_prints h (Nat.not_lt.mp hlt) hp
  case mpr =>
    intro hlt
    have hs := vSprintf_eq buf.val number h
    have ⟨rest, number', hr, he⟩ := Piece.foldlM_write [] number.property <| buf.property.symm ▸ hlt
    have hz : 0 ∉ ps.flatMap Piece.text := by
      intro hm
      have ⟨p, hp, hm⟩ := List.mem_flatMap.mp hm
      refine Piece.zero_notMem_text (fun c hc hz => ?_) hm
      exact format.nonzero <| hz ▸ mem_of_char_mem h (hc ▸ hp)
    cases rest
    case nil =>
      have := buf.property
      simp only [List.length_nil, Nat.zero_add] at hr
      omega
    case cons c rest =>
      have hp := put_append (ps.flatMap Piece.text) rest c 0
      rw [he, List.nil_append] at hs
      simp only [Output.at, bind, Except.bind, hp] at hs
      have hm : 0 ∈ ps.flatMap Piece.text ++ 0 :: rest := by simp
      refine ⟨_, _, hs, hm, congrArg _ <| cstring_append hz, ?_⟩
      simp only [vPrintfCallback, hs, pure, Except.pure, bind, Except.bind, hm, if_true]

-- The format `%s`.
def stringFormat : CString where
  chars   := [percent, 0x73]
  nonzero := by decide

-- A string of `n` letters.
def letters (n : Nat) : CString where
  chars   := List.replicate n 0x61
  nonzero := by simp

def zeros (n : Nat) : Local n :=
  ⟨List.replicate n 0, List.length_replicate ..⟩

theorem pieces_stringFormat (s : CString) : pieces stringFormat.chars [.string s] = some [.string s] := by
  simp [stringFormat, pieces, percent, directive]

theorem width_letters (n : Nat) : (([.string <| letters n] : List Piece).map Piece.width).sum = n := by
  rw [List.map_singleton, List.sum_singleton, Piece.width, letters, List.length_replicate]

theorem letters_prints : Prints (zeros 256) (zeros 30) stringFormat [.string <| letters 255] :=
  (prints_iff _ _ _ _ <| pieces_stringFormat _).mpr <| (width_letters 255).trans_lt <| by decide

-- The terminating zero of a string of 256 letters is written behind the buffer.
theorem letters_not_prints : ¬Prints (zeros 256) (zeros 30) stringFormat [.string <| letters 256] :=
  not_prints (pieces_stringFormat _) (width_letters 256).ge

end Zgmos.Kustd
