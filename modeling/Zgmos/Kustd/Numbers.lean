import Zgmos.Kustd.Text
import Zgmos.Lib.Numeral

-- The formatting of numbers.

namespace Zgmos.Kustd

abbrev Base := { b : Nat // 2 ≤ b ∧ b ≤ 32 }

def zero : Byte :=
  0x30

def minus : Byte :=
  0x2d

-- The remainder of a negative number is not positive.
def digitChar (r : Int) : Byte :=
  .ofInt 8 <| if 10 ≤ r then 65 + (r - 10) else 48 + r

-- The loop of `itoa` and `utoa`.
def writeDigits (base : Base) (buffer : Buffer) (i : Nat) (n : Int) : Except Fault (Buffer × Nat) :=
  if n = 0 then
    return (buffer, i)
  else do
    let buffer ← put buffer i <| digitChar (n.tmod base.val)
    writeDigits base buffer (i + 1) (n.tdiv base.val)
termination_by n.natAbs
decreasing_by
  have := base.property.1
  rw [Int.natAbs_tdiv, Int.natAbs_natCast]
  exact Nat.div_lt_self (by omega) (by omega)

-- The digits of a number, of which the last one comes first.
def writeNumeral (base : Base) (buffer : Buffer) (n : Int) : Except Fault (Buffer × Nat) := do
  let (buffer, i) ← writeDigits base buffer 0 n
  if i = 0 then
    return (← put buffer i zero, i + 1)
  else
    return (buffer, i)

def abs (value : BitVec 32) : BitVec 32 :=
  if 0 < value.toInt then value else -value

-- The argument of `abs` is narrowed to an `int`.
def itoa (value : BitVec 64) (buffer : Buffer) (base : Int) : Except Fault Buffer :=
  if h : 2 ≤ base ∧ base ≤ 32 then do
    let n := (abs <| value.truncate 32).toInt
    let (buffer, i) ← writeNumeral ⟨base.toNat, by omega⟩ buffer n
    let (buffer, i) ← if value.toInt < 0 ∧ base = 10 then pure (← put buffer i minus, i + 1) else pure (buffer, i)
    let buffer ← put buffer i 0
    reverse buffer 0 (i - 1)
  else
    return buffer

def utoa (value : BitVec 64) (buffer : Buffer) (base : Nat) : Except Fault Buffer :=
  if h : 2 ≤ base ∧ base ≤ 32 then do
    let (buffer, i) ← writeNumeral ⟨base, h⟩ buffer value.toNat
    let buffer ← put buffer i 0
    reverse buffer 0 (i - 1)
  else
    return buffer

-- What a character stands for.
def digitValue (c : Byte) : Option Nat :=
  if 48 ≤ c ∧ c ≤ 57 then some (c.toNat - 48)
  else if 65 ≤ c ∧ c ≤ 86 then some (c.toNat - 55)
  else none

-- Reads a decimal number with its sign.
def readInt : List Byte → Option Int
  | []        => none
  | c :: text =>
    if c = minus then
      (Numeral.decode digitValue 10 text).map fun n : Nat => -(n : Int)
    else
      (Numeral.decode digitValue 10 (c :: text)).map fun n : Nat => (n : Int)

-- The string is at the beginning of each buffer which is large enough for it. What lies behind it remains.
def Writes (f : Buffer → Except Fault Buffer) (text : List Byte) : Prop :=
  ∀ buffer, text.length < buffer.length → f buffer = .ok (text ++ 0 :: buffer.drop (text.length + 1))

-- What is wanted of `itoa`.
structure Formatted (value : BitVec 64) (base : Base) (text : List Byte) : Prop where
  denotes : ∃ digits, text = (if base.val = 10 ∧ value.toInt < 0 then [minus] else []) ++ digits ∧
    Numeral.Denotes digitValue base digits value.toInt.natAbs
  readBack : base.val = 10 → readInt text = some value.toInt

-- The text of `n`, without the sign of `itoa`.
def signedText (base : Base) (n : Int) : List Byte :=
  Numeral.encode (fun d => digitChar (n.sign * d)) base n.natAbs

variable {base : Base} {buffer pre post : Buffer} {value : BitVec 64} {n s : Int} {d m : Nat} {text : List Byte}

theorem digitValue_digitChar : ∀ d : Nat, d < 32 → digitValue (digitChar d) = some d := by
  decide

theorem Base.one_lt : 1 < base.val :=
  base.property.1

theorem digitValue_of_lt (hd : d < base.val) : digitValue (digitChar d) = some d :=
  digitValue_digitChar d <| hd.trans_le base.property.2

theorem tmod_mul (hs : s = 1 ∨ s = -1) (m b : Nat) : (s * m).tmod b = s * (m % b : Nat) := by
  cases hs
  case inl hs => rw [hs, one_mul, one_mul, Int.ofNat_tmod]
  case inr hs => rw [hs, neg_one_mul, neg_one_mul, Int.neg_tmod, Int.ofNat_tmod]

theorem tdiv_mul (hs : s = 1 ∨ s = -1) (m b : Nat) : (s * m).tdiv b = s * (m / b : Nat) := by
  cases hs
  case inl hs => rw [hs, one_mul, one_mul, Int.ofNat_tdiv]
  case inr hs => rw [hs, neg_one_mul, neg_one_mul, Int.neg_tdiv, Int.ofNat_tdiv]

theorem writeDigits_eq (pre : Buffer) (hs : s = 1 ∨ s = -1) (hl : (Nat.digits base m).length ≤ post.length) :
    writeDigits base (pre ++ post) pre.length (s * m) =
      .ok (pre ++ (Nat.digits base m).map (fun d : Nat => digitChar (s * d)) ++ post.drop (Nat.digits base m).length,
        pre.length + (Nat.digits base m).length) := by
  induction m using Nat.strong_induction_on generalizing pre post
  case h m hi =>
    cases Nat.eq_zero_or_pos m
    case inl hm =>
      rw [hm, writeDigits, if_pos (by simp)]
      simp [pure, Except.pure]
    case inr hm =>
      have hne : s * m ≠ 0 := mul_ne_zero (by omega) (by omega)
      have hd := Nat.digits_def' Base.one_lt hm (b := base.val)
      rw [hd, List.length_cons] at hl ⊢
      cases post
      case nil => simp at hl
      case cons c post =>
        have hi := @hi (m / base.val) (Nat.div_lt_self hm Base.one_lt) post
          (pre ++ [digitChar (s * (m % base.val : Nat))]) (by simpa using hl)
        rw [writeDigits, if_neg hne, tmod_mul hs, tdiv_mul hs, put_append]
        simp only [List.append_assoc, List.cons_append, List.nil_append, List.length_append, List.length_cons,
          List.length_nil] at hi ⊢
        simp only [bind, Except.bind, hi, List.drop_succ_cons]
        rw [Nat.add_assoc, Nat.add_comm 1]
        rfl

theorem length_signedText : (signedText base n).length = if n = 0 then 1 else (Nat.digits base n.natAbs).length := by
  unfold signedText Numeral.encode
  split_ifs
  case pos => rfl
  case neg hn h => exact absurd (Int.natAbs_eq_zero.mp hn) h
  case pos hn h => exact absurd (Int.natAbs_eq_zero.mpr h) hn
  case neg => simp

-- The characters are in the buffer in the order in which they are computed.
theorem writeNumeral_eq (hl : (signedText base n).length ≤ buffer.length) : writeNumeral base buffer n =
    .ok ((signedText base n).reverse ++ buffer.drop (signedText base n).length, (signedText base n).length) := by
  rw [length_signedText] at hl ⊢
  by_cases hn : n = 0
  case pos =>
    rw [if_pos hn] at hl ⊢
    cases buffer
    case nil => simp at hl
    case cons c buffer =>
      rw [writeNumeral, writeDigits, if_pos hn]
      simp [pure, Except.pure, bind, Except.bind, put, signedText, Numeral.encode, hn]
      decide
  case neg =>
    rw [if_neg hn] at hl ⊢
    have hs : n.sign = 1 ∨ n.sign = -1 := by
      cases Int.lt_or_gt_of_ne hn
      case inl h => exact .inr <| Int.sign_eq_neg_one_of_neg h
      case inr h => exact .inl <| Int.sign_eq_one_of_pos h
    have hw := writeDigits_eq [] hs hl
    have hne : (Nat.digits base n.natAbs).length ≠ 0 := by simpa [Nat.digits_ne_nil_iff_ne_zero] using hn
    rw [Int.sign_mul_natAbs, List.nil_append, List.nil_append, List.length_nil, Nat.zero_add] at hw
    simp only [writeNumeral, hw, bind, Except.bind, hne, if_false, signedText, Numeral.encode, List.reverse_reverse,
      Int.natAbs_eq_zero, hn]
    rfl

-- The end of `itoa` and `utoa`.
theorem terminate_eq (text : List Byte) (hr : post ≠ []) :
    (do
      let buffer ← put (text.reverse ++ post) text.length 0
      reverse buffer 0 (text.length - 1)) = .ok (text ++ 0 :: post.tail) := by
  cases post
  case nil => exact absurd rfl hr
  case cons c post =>
    have hp := put_append text.reverse post c 0
    have hv := reverse_append [] text.reverse (0 :: post)
    rw [List.length_reverse] at hp
    simp only [List.nil_append, List.length_nil, Nat.zero_add, List.length_reverse, List.reverse_reverse] at hv
    simp only [hp, bind, Except.bind, hv, List.tail_cons]

theorem utoa_writes (value : BitVec 64) (base : Base) :
    Writes (utoa value · base) (signedText base value.toNat) := by
  intro buffer hl
  have hd : buffer.drop (signedText base value.toNat).length ≠ [] := by simpa using hl
  simp only [utoa, base.property, and_self, dite_true, writeNumeral_eq hl.le, bind, Except.bind]
  refine (terminate_eq _ hd).trans ?_
  rw [List.tail_drop]

theorem itoa_writes (value : BitVec 64) (base : Base) : Writes (itoa value · base)
    ((if base.val = 10 ∧ value.toInt < 0 then [minus] else []) ++ signedText base (abs <| value.truncate 32).toInt) := by
  intro buffer hl
  have hb : 2 ≤ (base.val : Int) ∧ (base.val : Int) ≤ 32 := by exact_mod_cast base.property
  have hten : (base.val : Int) = 10 ↔ base.val = 10 := by omega
  generalize hn : (abs <| value.truncate 32).toInt = n at hl ⊢
  have hle : (signedText base n).length ≤ buffer.length := by
    rw [List.length_append] at hl
    omega
  have hw := writeNumeral_eq hle
  simp only [itoa, hb, and_self, dite_true, hn, Int.toNat_natCast, Subtype.coe_eta, hw, bind, Except.bind, hten,
    and_comm (a := value.toInt < 0)]
  split_ifs at hl ⊢
  case pos =>
    have hd : buffer.drop (signedText base n).length ≠ [] := by
      simp at hl ⊢
      omega
    cases he : buffer.drop (signedText base n).length
    case nil => exact absurd he hd
    case cons c post =>
      have hp := put_append (signedText base n).reverse post c minus
      rw [List.length_reverse] at hp
      have hpost : post = buffer.drop ((signedText base n).length + 1) := by
        rw [← List.tail_drop, he, List.tail_cons]
      have hne : post ≠ [] := by
        simp [hpost] at hl ⊢
        omega
      have ht := terminate_eq (minus :: signedText base n) hne
      simp only [List.reverse_cons, List.append_assoc, List.cons_append, List.nil_append, List.length_cons] at ht
      simp only [hp, pure, Except.pure]
      refine ht.trans ?_
      simp [hpost]
  case neg =>
    have hd : buffer.drop (signedText base n).length ≠ [] := by simpa using hl
    simp only [pure, Except.pure]
    refine (terminate_eq _ hd).trans ?_
    rw [List.tail_drop, List.nil_append]

theorem digitChar_ne_zero {d : Int} (h : -32 < d) (h' : d < 32) : digitChar d ≠ 0 := by
  have hc : ∀ k : Nat, k < 63 → digitChar ((k : Int) - 31) ≠ 0 := by decide
  have := hc (d + 31).toNat (by omega)
  rwa [Int.toNat_of_nonneg (by omega), Int.add_sub_cancel] at this

-- There is no zero in the text.
theorem zero_notMem_signedText : 0 ∉ signedText base n := by
  have hb := base.property.2
  have hs : n.sign = 1 ∨ n.sign = 0 ∨ n.sign = -1 := by
    have := Int.sign_trichotomy n
    omega
  unfold signedText Numeral.encode
  split_ifs
  case pos => simpa using (digitChar_ne_zero (d := 0) (by omega) (by omega)).symm
  case neg =>
    intro h
    have ⟨d, hd, he⟩ := List.mem_map.mp <| List.mem_reverse.mp h
    have hlt := Nat.digits_lt_base Base.one_lt hd
    refine digitChar_ne_zero ?_ ?_ he
    all_goals rcases hs with hs | hs | hs <;> rw [hs] <;> omega

theorem signedText_natCast : signedText base m = Numeral.encode (fun d => digitChar d) base m := by
  unfold signedText
  rw [Int.natAbs_natCast]
  cases Nat.eq_zero_or_pos m
  case inl hm => simp [hm, Numeral.encode]
  case inr hm => simp [Int.sign_natCast_of_ne_zero hm.ne']

theorem signedText_denotes (base : Base) (m : Nat) : Numeral.Denotes digitValue base (signedText base m) m :=
  signedText_natCast ▸ Numeral.encode_denotes Base.one_lt fun _ => digitValue_of_lt

-- The text of a number determines it, and is one of at most 64 digits without leading zeros.
theorem utoa_spec (base : Base) : ∃ text : BitVec 64 → List Byte, Function.Injective text ∧ ∀ value,
    Writes (utoa value · base) (text value) ∧ Numeral.Denotes digitValue base (text value) value.toNat ∧
      (text value).length + 1 ≤ 65 := by
  refine ⟨fun value => signedText base value.toNat, fun value value' he => ?_, fun value => ⟨utoa_writes value base, ?_, ?_⟩⟩
  case refine_1 =>
    have h := (signedText_denotes base value.toNat).value
    rw [show signedText base value.toNat = _ from he, (signedText_denotes base _).value] at h
    exact BitVec.eq_of_toNat_eq (Option.some.inj h).symm
  case refine_2 => exact signedText_denotes ..
  case refine_3 =>
    have hlt : value.toNat < base ^ 64 := value.isLt.trans_le <| Nat.pow_le_pow_left base.property.1 64
    refine Nat.succ_le_succ ?_
    show (signedText base value.toNat).length ≤ 64
    rw [signedText_natCast]
    exact Numeral.length_encode_le Base.one_lt (by decide) hlt

-- A string that is written determines its text.
theorem Writes.unique {f : Buffer → Except Fault Buffer} {text' : List Byte} (w : Writes f text) (w' : Writes f text')
    (h : 0 ∉ text) (h' : 0 ∉ text') : text = text' := by
  have hw := w (List.replicate (text.length + text'.length + 1) 0) <| by simp
  rw [w' _ <| by simp] at hw
  rw [← cstring_append h, ← cstring_append h', Except.ok.inj hw]

theorem Denotes.zero_notMem (h : Numeral.Denotes digitValue base text m) : 0 ∉ text := by
  intro hm
  have ⟨_, _, hd⟩ := Numeral.digit_of_foldlM h.value hm
  cases hd

theorem Formatted.zero_notMem (h : Formatted value base text) : 0 ∉ text := by
  have ⟨digits, he, hd⟩ := h.denotes
  have := Denotes.zero_notMem hd
  rw [he]
  split_ifs <;> simpa [minus] using this

theorem Formatted.of_denotes {digits : List Byte} (h : Numeral.Denotes digitValue base digits value.toInt.natAbs) :
    Formatted value base ((if base.val = 10 ∧ value.toInt < 0 then [minus] else []) ++ digits) where
  denotes  := ⟨digits, rfl, h⟩
  readBack := by
    intro hb
    have hv := h.value
    rw [hb] at hv
    cases hd : digits
    case nil => exact absurd hd h.nonempty
    case cons c digits' =>
      have hc : c ≠ minus := by
        have ⟨_, _, hc⟩ := Numeral.digit_of_foldlM h.value <| hd ▸ List.Mem.head _
        intro he
        rw [he] at hc
        cases hc
      rw [hd] at hv
      split_ifs
      case pos hn =>
        simp only [readInt, List.cons_append, List.nil_append, if_true, hv, Option.map_some]
        congr 1
        omega
      case neg hn =>
        simp only [readInt, List.nil_append, hc, if_false, hv, Option.map_some]
        congr 1
        omega

-- The first character of a negative number is not a digit.
theorem signedText_of_neg (hn : n < 0) : ¬Numeral.Denotes digitValue base (signedText base n) m := by
  intro h
  have hz : n.natAbs ≠ 0 := by omega
  have hne : Nat.digits base n.natAbs ≠ [] := Nat.digits_ne_nil_iff_ne_zero.mpr hz
  have hl := List.getLast_mem hne
  have hpos := Nat.pos_of_ne_zero <| Nat.getLast_digit_ne_zero base.val hz
  have hlt := (Nat.digits_lt_base Base.one_lt hl).trans_le base.property.2
  have hm : digitChar (-((Nat.digits base n.natAbs).getLast hne : Nat)) ∈ signedText base n := by
    rw [signedText, Numeral.encode, if_neg hz, Int.sign_eq_neg_one_of_neg hn]
    exact List.mem_reverse.mpr <| List.mem_map.mpr ⟨_, hl, by simp⟩
  have ⟨_, _, hd⟩ := Numeral.digit_of_foldlM h.value hm
  have hc : ∀ k : Nat, k < 32 → 0 < k → digitValue (digitChar (-k)) = none := by decide
  rw [hc _ hlt hpos] at hd
  cases hd

theorem abs_toInt (v : BitVec 32) :
    (abs v).toInt = if v.toInt = -2 ^ 31 then (-2 ^ 31 : Int) else (v.toInt.natAbs : Int) := by
  have hle := @BitVec.le_toInt 32 v
  have hlt := @BitVec.toInt_lt 32 v
  unfold abs
  split_ifs
  case pos h h' => omega
  case neg h h' => omega
  case pos h h' => simp [BitVec.toInt_neg, h']
  case neg h h' =>
    rw [BitVec.toInt_neg, Int.bmod_eq_of_le] <;> omega

theorem truncate_toInt : (value.truncate 32).toInt = value.toInt.bmod (2 ^ 32) := by
  rw [BitVec.truncate, BitVec.toInt_setWidth, BitVec.toInt_eq_toNat_bmod, Int.bmod_bmod_of_dvd (by decide)]

theorem zero_notMem_sign {p : Prop} [Decidable p] (h : 0 ∉ text) : 0 ∉ (if p then [minus] else []) ++ text := by
  split_ifs <;> simpa [minus] using h

-- What is written denotes the number that `abs` returns.
theorem Formatted.bounds (hf : Formatted value base text) (hw : Writes (itoa value · base) text) :
    -2 ^ 31 < value.toInt ∧ value.toInt < 2 ^ 31 := by
  have ha := abs_toInt <| value.truncate 32
  have hu := @BitVec.toInt_lt 32 (value.truncate 32)
  have hl := @BitVec.le_toInt 32 (value.truncate 32)
  have ⟨digits, he, hd⟩ := hf.denotes
  have ht := hw.unique (itoa_writes value base) hf.zero_notMem <| zero_notMem_sign zero_notMem_signedText
  rw [he, List.append_cancel_left_eq] at ht
  rw [ht] at hd
  split_ifs at ha
  case pos => exact absurd hd <| signedText_of_neg <| ha ▸ by decide
  case neg hw =>
    rw [ha] at hd
    have hv := hd.value
    rw [(signedText_denotes base _).value] at hv
    have := Option.some.inj hv
    omega

-- A number is formatted as wanted iff it is an `int` whose absolute value is one, too.
theorem itoa_iff (value : BitVec 64) (base : Base) :
    (∃ text, Formatted value base text ∧ Writes (itoa value · base) text) ↔
      -2 ^ 31 < value.toInt ∧ value.toInt < 2 ^ 31 := by
  constructor
  case mp => exact fun ⟨_, hf, hw⟩ => hf.bounds hw
  case mpr =>
    intro ⟨hl, hu⟩
    have hw := itoa_writes value base
    have ha := abs_toInt <| value.truncate 32
    have hv : (value.truncate 32).toInt = value.toInt := by
      rw [truncate_toInt]
      exact Int.bmod_eq_of_le (by omega) (by omega)
    rw [hv, if_neg (by omega)] at ha
    rw [ha] at hw
    exact ⟨_, .of_denotes <| signedText_denotes .., hw⟩

-- The number 2 ^ 32 is narrowed to zero.
theorem itoa_not_formatted : ¬∃ text, Formatted 0x100000000 ⟨10, by decide⟩ text ∧
    Writes (itoa 0x100000000 · (⟨10, by decide⟩ : Base).val) text := by
  intro ⟨_, hf, hw⟩
  exact absurd (hf.bounds hw) (by decide)

end Zgmos.Kustd
