import Mathlib.Data.List.Forall2
import Mathlib.Data.List.TakeWhile
import McLinOS.CLib.Loop
import McLinOS.CLib.Runs
import McLinOS.CLib.Strings
/-!
# Tokens

`strsep` of `lib/_string.c` takes the tokens off a string one by one and ends each with a 0
in its place. The delimiters are a string that lies elsewhere, so it is given by its
characters; `none` is `NULL`.
-/
open CLib

namespace McLinOS.Tokens

section Functions
variable (fuel : Nat) (m : Mem)

def strchr (s : List UInt8) (c : UInt8) : Bool := s.contains c

def strpbrk_body (ct : List UInt8) (sc : Nat) : ControlFlow Nat (Option Nat) :=
  if m sc = 0 then .done none else if strchr ct (m sc) then .done (some sc) else .cont (sc + 1)

def strpbrk (cs : Nat) (ct : List UInt8) : Option (Option Nat) := loop (strpbrk_body m ct) fuel cs

/-- What is returned, and what `*s` and the memory are then. -/
def strsep (s : Option Nat) (ct : List UInt8) : Option (Option Nat × Option Nat × Mem) :=
  match s with
  | none => some (none, none, m)
  | some sbegin =>
    (strpbrk fuel m sbegin ct).map fun
      | some stop => (some sbegin, some (stop + 1), m.set stop 0)
      | none => (some sbegin, none, m)

/-- A call that runs out of fuel has no result. -/
def call (st : Option Nat × Mem) (ct : List UInt8) : Option (Option Nat) × (Option Nat × Mem) :=
  match strsep fuel st.2 st.1 ct with
  | some (r, st) => (some r, st)
  | none => (none, st)

end Functions

/-- What the calls are for: the characters up to the first delimiter, and those behind it. -/
def next_token (rest : Option (List UInt8)) (ct : List UInt8) : Option (List UInt8) × Option (List UInt8) :=
  (rest.map fun text => text.takeWhile fun c => !strchr ct c, rest.bind fun text => (text.dropWhile fun c => !strchr ct c).tail?)

/-- The result of a call reads as the token. -/
def Reads (m : Mem) : Option (Option Nat) → Option (List UInt8) → Prop
  | some none, none => True
  | some (some p), some token => m.StringAt p token
  | _, _ => False

section Strings
variable {fuel n p : Nat} {m m' : Mem} {ct text us vs : List UInt8} {c : UInt8}

/-- The text has no delimiter, or one behind its first token. -/
theorem text_cases (ct text : List UInt8) :
    (∀ c ∈ text, strchr ct c = false) ∨
      ∃ us c vs, text = us ++ c :: vs ∧ (∀ d ∈ us, strchr ct d = false) ∧ strchr ct c = true := by
  induction text with
  | nil => exact .inl (by simp)
  | cons c text ih =>
    cases hc : strchr ct c with
    | true => exact .inr ⟨[], c, text, rfl, by simp, hc⟩
    | false =>
      obtain hnone | ⟨us, d, vs, rfl, hus, hd⟩ := ih
      · exact .inl (List.forall_mem_cons.2 ⟨hc, hnone⟩)
      · exact .inr ⟨c :: us, d, vs, rfl, List.forall_mem_cons.2 ⟨hc, hus⟩, hd⟩

/-- A character that is no delimiter is passed. -/
theorem strpbrk_pass (h : m.StringAt p (c :: text)) (hc : strchr ct c = false) :
    strpbrk (n + 1) m p ct = strpbrk n m (p + 1) ct := by
  obtain ⟨hne, hp, -⟩ := h
  refine loop_cont ?_ n
  rw [strpbrk_body, hp, if_neg hne, if_neg (Bool.eq_false_iff.1 hc)]

theorem strpbrk_none (h : m.StringAt p text) (hf : text.length < fuel) (hnone : ∀ c ∈ text, strchr ct c = false) :
    strpbrk fuel m p ct = some none := by
  induction text generalizing p fuel with
  | nil =>
    obtain ⟨fuel, rfl⟩ : ∃ k, fuel = k + 1 := ⟨fuel - 1, by omega⟩
    refine loop_done ?_ fuel
    exact if_pos h
  | cons c text ih =>
    obtain ⟨fuel, rfl⟩ : ∃ k, fuel = k + 1 := ⟨fuel - 1, by omega⟩
    obtain ⟨hc, hrest⟩ := List.forall_mem_cons.1 hnone
    rw [strpbrk_pass h hc]
    exact ih h.2.2 (Nat.lt_of_succ_lt_succ hf) hrest

theorem strpbrk_first (h : m.StringAt p (us ++ c :: vs)) (hf : us.length < fuel) (hus : ∀ d ∈ us, strchr ct d = false)
    (hc : strchr ct c = true) : strpbrk fuel m p ct = some (some (p + us.length)) := by
  induction us generalizing p fuel with
  | nil =>
    obtain ⟨fuel, rfl⟩ : ∃ k, fuel = k + 1 := ⟨fuel - 1, by omega⟩
    obtain ⟨hne, hp, -⟩ := h
    refine loop_done ?_ fuel
    rw [strpbrk_body, hp, if_neg hne, if_pos hc]
    rfl
  | cons d us ih =>
    obtain ⟨fuel, rfl⟩ : ∃ k, fuel = k + 1 := ⟨fuel - 1, by omega⟩
    obtain ⟨hd, hrest⟩ := List.forall_mem_cons.1 hus
    rw [strpbrk_pass h hd, ih h.2.2 (Nat.lt_of_succ_lt_succ hf) hrest, List.length_cons, Nat.add_assoc, Nat.add_comm 1]

theorem next_token_last (h : ∀ c ∈ text, strchr ct c = false) : next_token (some text) ct = (some text, none) := by
  have hpass : ∀ c ∈ text, (!strchr ct c) = true := fun c hc => by rw [h c hc, Bool.not_false]
  rw [next_token, Option.map_some, Option.bind_some, List.takeWhile_eq_self_iff.2 hpass, List.dropWhile_eq_nil_iff.2 hpass]
  rfl

theorem next_token_first (hus : ∀ d ∈ us, strchr ct d = false) (hc : strchr ct c = true) :
    next_token (some (us ++ c :: vs)) ct = (some us, some vs) := by
  have hpass : ∀ d ∈ us, (!strchr ct d) = true := fun d hd => by rw [hus d hd, Bool.not_false]
  have hstop : ¬(!strchr ct c) = true := by rw [hc]; decide
  rw [next_token, Option.map_some, Option.bind_some, List.takeWhile_append_of_pos hpass,
    List.takeWhile_cons_of_neg (p := fun c => !strchr ct c) hstop, List.dropWhile_append_of_pos hpass,
    List.dropWhile_cons_of_neg (p := fun c => !strchr ct c) hstop, List.append_nil]
  rfl

/-- A call takes off the last token, or the one in front of a delimiter. -/
theorem call_spec (h : m.StringAt p text) (hf : text.length < fuel) (ct : List UInt8) :
    (next_token (some text) ct = (some text, none) ∧ call fuel (some p, m) ct = (some (some p), none, m)) ∨
      ∃ us c vs, text = us ++ c :: vs ∧ next_token (some text) ct = (some us, some vs) ∧
        call fuel (some p, m) ct = (some (some p), some (p + us.length + 1), m.set (p + us.length) 0) := by
  obtain hnone | ⟨us, c, vs, rfl, hus, hc⟩ := text_cases ct text
  · refine .inl ⟨next_token_last hnone, ?_⟩
    rw [call, strsep, strpbrk_none h hf hnone]
    rfl
  · refine .inr ⟨us, c, vs, rfl, next_token_first hus hc, ?_⟩
    rw [List.length_append] at hf
    rw [call, strsep, strpbrk_first h (by omega) hus hc]
    rfl

/-! ## All the tokens -/

theorem calls_null (fuel : Nat) (m : Mem) (cts : List (List UInt8)) :
    calls (call fuel) cts (none, m) = (List.replicate cts.length (some none), none, m) := by
  induction cts with
  | nil => rfl
  | cons ct cts ih =>
    have hnull : call fuel (none, m) ct = (some none, none, m) := rfl
    rw [calls, hnull, ih]
    rfl

theorem next_tokens_none (cts : List (List UInt8)) : calls next_token cts none = (List.replicate cts.length none, none) := by
  induction cts with
  | nil => rfl
  | cons ct cts ih =>
    have hnone : next_token none ct = (none, none) := rfl
    rw [calls, hnone, ih]
    rfl

theorem reads_null (m : Mem) (n : Nat) : List.Forall₂ (Reads m) (List.replicate n (some none)) (List.replicate n none) := by
  induction n with
  | zero => exact .nil
  | succ n ih => exact .cons trivial ih

/-- When all the calls are made, each result reads as its token, whatever delimiters each
call was given, and nothing outside of the string has changed. -/
theorem tokens_read (h : m.StringAt p text) (hf : text.length < fuel) (cts : List (List UInt8)) :
    List.Forall₂ (Reads (calls (call fuel) cts (some p, m)).2.2) (calls (call fuel) cts (some p, m)).1
        (calls next_token cts (some text)).1 ∧
      ∀ x, x < p ∨ p + text.length ≤ x → (calls (call fuel) cts (some p, m)).2.2 x = m x := by
  induction cts generalizing p text m with
  | nil => exact ⟨.nil, fun x _ => rfl⟩
  | cons ct cts ih =>
    obtain ⟨htoken, hcall⟩ | ⟨us, c, vs, rfl, htoken, hcall⟩ := call_spec h hf ct
    · rw [calls, calls, htoken, hcall, calls_null, next_tokens_none]
      exact ⟨.cons h (reads_null m _), fun x _ => rfl⟩
    · have hlen : (us ++ c :: vs).length = us.length + vs.length + 1 := by simp [Nat.add_assoc]
      rw [hlen] at hf
      have hbehind : (m.set (p + us.length) 0).StringAt (p + us.length + 1) vs :=
        h.behind.congr fun x hlow _ => Mem.set_ne (by omega)
      obtain ⟨hreads, hframe⟩ := ih hbehind (by omega)
      rw [calls, calls, htoken, hcall]
      refine ⟨.cons ?_ hreads, fun x hx => ?_⟩
      -- The later calls are behind the 0 that ends the token.
      · exact h.cut.congr fun x _ hhigh => hframe x (.inl (by omega))
      · rw [hlen] at hx
        exact (hframe x (by omega)).trans (Mem.set_ne (by omega))

/-- With the same delimiters each time the tokens are what lies between them. -/
theorem next_tokens_splitOnP (ct text : List UInt8) (n : Nat) :
    (calls next_token (List.replicate n ct) (some text)).1 =
      ((text.splitOnP (strchr ct)).map some ++ List.replicate n none).take n := by
  induction n generalizing text with
  | zero => rfl
  | succ n ih =>
    rw [List.replicate_succ, calls]
    obtain hnone | ⟨us, c, vs, rfl, hus, hc⟩ := text_cases ct text
    · rw [next_token_last hnone, next_tokens_none, List.splitOnP_eq_singleton hnone]
      have hnulls : (List.replicate (n + 1) (none : Option (List UInt8))).take n = List.replicate n none := by
        rw [List.take_replicate, Nat.min_eq_left (Nat.le_succ n)]
      simp [hnulls]
    · rw [next_token_first hus hc, List.splitOnP_append_cons_of_forall_mem hus c hc, ih]
      simp [List.take_append, List.take_replicate]
      omega

/-- Calls with the same delimiters give what lies between them, and then `NULL`. -/
theorem text_split (h : m.StringAt p text) (hf : text.length < fuel) (ct : List UInt8) (n : Nat) :
    List.Forall₂ (Reads (calls (call fuel) (List.replicate n ct) (some p, m)).2.2)
        (calls (call fuel) (List.replicate n ct) (some p, m)).1
        (((text.splitOnP (strchr ct)).map some ++ List.replicate n none).take n) ∧
      ∀ x, x < p ∨ p + text.length ≤ x → (calls (call fuel) (List.replicate n ct) (some p, m)).2.2 x = m x := by
  rw [← next_tokens_splitOnP]
  exact tokens_read h hf (List.replicate n ct)

/-- The text `a,,b` at the address 100. -/
theorem text_split_three :
    List.Forall₂
      (Reads (calls (call 8) (List.replicate 4 [44]) (some 100, Mem.copy (fun _ => 0) 100 [97, 44, 44, 98])).2.2)
      (calls (call 8) (List.replicate 4 [44]) (some 100, Mem.copy (fun _ => 0) 100 [97, 44, 44, 98])).1
      [some [97], some [], some [98], none] := by
  have htext : (Mem.copy (fun _ => 0) 100 [97, 44, 44, 98]).StringAt 100 [97, 44, 44, 98] :=
    ⟨by decide, rfl, by decide, rfl, by decide, rfl, by decide, rfl, rfl⟩
  exact (text_split htext (by decide : _ < 8) [44] 4).1

end Strings

end McLinOS.Tokens
