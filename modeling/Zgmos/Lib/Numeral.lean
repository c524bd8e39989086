import Mathlib

-- Positional numerals with the most significant digit first. The digits are characters of an arbitrary type.

namespace Numeral

-- The numeral of a number. `char` gives the character of a digit.
def encode (char : Nat → α) (b n : Nat) : List α :=
  if n = 0 then [char 0] else ((Nat.digits b n).map char).reverse

-- Reads one more digit. `digit` gives what a character stands for.
def push (digit : α → Option Nat) (b acc : Nat) (c : α) : Option Nat :=
  (digit c).bind fun d => if d < b then some (acc * b + d) else none

def decode (digit : α → Option Nat) (b : Nat) (text : List α) : Option Nat :=
  text.foldlM (push digit b) 0

structure Denotes (digit : α → Option Nat) (b : Nat) (text : List α) (n : Nat) : Prop where
  nonempty : text ≠ []
  value    : decode digit b text = some n
  -- There is no leading zero but zero itself.
  leading  : c ∈ text.head? → digit c = some 0 → text = [c]

variable {digit : α → Option Nat} {char : Nat → α} {b n acc k : Nat} {text : List α} {c : α}

theorem foldlM_push (h : ∀ d < b, digit (char d) = some d) {ds : List Nat} (hd : ∀ d ∈ ds, d < b) :
    ((ds.map char).reverse).foldlM (push digit b) 0 = some (Nat.ofDigits b ds) := by
  induction ds
  case nil => rfl
  case cons d ds hi =>
    have hlt := hd d <| .head _
    have hi := hi fun d hm => hd d <| .tail _ hm
    rw [List.map_cons, List.reverse_cons, List.foldlM_append, hi]
    simp [push, h d hlt, hlt, Nat.ofDigits_cons, Nat.mul_comm, Nat.add_comm]

-- Each character of a text which can be read is a digit.
theorem digit_of_foldlM (h : text.foldlM (push digit b) acc = some n) (hc : c ∈ text) : ∃ d < b, digit c = some d := by
  induction text generalizing acc
  case nil => cases hc
  case cons c' text hi =>
    rw [List.foldlM_cons] at h
    have ⟨acc', hp, h⟩ := Option.bind_eq_some_iff.mp h
    cases hc
    case tail hc => exact hi h hc
    case head =>
      have ⟨d, hd, hp⟩ := Option.bind_eq_some_iff.mp hp
      by_cases hlt : d < b
      case pos => exact ⟨d, hlt, hd⟩
      case neg => simp [hlt] at hp

theorem encode_denotes (hb : 1 < b) (h : ∀ d < b, digit (char d) = some d) : Denotes digit b (encode char b n) n := by
  unfold encode
  split_ifs
  case pos hn =>
    constructor
    case nonempty => simp
    case value    => simp [decode, push, h 0 (by omega), hn, Nat.zero_lt_of_lt hb]
    case leading  => simp +contextual
  case neg hn =>
    have hne : Nat.digits b n ≠ [] := Nat.digits_ne_nil_iff_ne_zero.mpr hn
    constructor
    case nonempty => simpa using hne
    case value    =>
      rw [decode, foldlM_push h fun d hd => Nat.digits_lt_base hb hd, Nat.ofDigits_digits]
    case leading  =>
      intro c hc hz
      rw [List.head?_reverse, List.getLast?_map, List.getLast?_eq_getLast_of_ne_nil hne] at hc
      cases hc
      have hlast := Nat.getLast_digit_ne_zero b hn
      rw [h _ <| Nat.digits_lt_base hb <| List.getLast_mem hne] at hz
      exact absurd (Option.some.inj hz) hlast

theorem length_encode_le (hb : 1 < b) (hk : 0 < k) (hn : n < b ^ k) : (encode char b n).length ≤ k := by
  unfold encode
  split_ifs
  case pos => exact hk
  case neg =>
    rw [List.length_reverse, List.length_map]
    exact (Nat.digits_length_le_iff hb n).mpr hn

end Numeral
