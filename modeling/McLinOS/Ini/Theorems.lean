import McLinOS.Ini.RoundTrip
/-!
# Lookups in a configuration

The head of the section is found, then the key, then the value. When the value
is not read as it is, something else is read or nothing.
-/
open CLib

namespace McLinOS.Ini

open Syscall

/-! ## The section -/

theorem Pair.no_bracket {p : Pair} (h : ∀ x ∈ strip p.value.text, is_bracket x = false) :
    ∀ l ∈ p.stripped, ∀ c ∈ l, is_bracket c = false := by
  have hblanks : ∀ w : Blanks, ∀ c ∈ w.val, is_bracket c = false := fun w c hc => not_bracket_of_is_blank (w.2 c hc)
  refine List.forall_mem_append.2 ⟨List.forall_mem_map.2 fun f _ => hblanks f.blanks, ?_⟩
  rw [List.forall_mem_singleton, p.strip_line]
  exact List.forall_mem_append.2 ⟨fun c hc => not_bracket_of_is_name (p.key.2 c hc), List.forall_mem_append.2
    ⟨hblanks p.before, List.forall_mem_cons.2 ⟨rfl, List.forall_mem_append.2 ⟨hblanks p.after, h⟩⟩⟩⟩

theorem filler_no_bracket (fs : List Filler) : ∀ l ∈ fs.map (·.blanks.val), ∀ c ∈ l, is_bracket c = false :=
  List.forall_mem_map.2 fun f _ c hc => not_bracket_of_is_blank (f.blanks.2 c hc)

theorem get_head_start_section {s : Section} {head : Word} (hname : starts s.name.val = true)
    (hshort : s.name.val.length < 64) (ls : List (List Char)) :
    get_head_start (tail_text (s.stripped ++ ls)) head.val =
      if s.name = head then some (some (after_head (s.pairs.flatMap (·.stripped) ++ ls)))
      else get_head_start (tail_text (s.pairs.flatMap (·.stripped) ++ ls)) head.val := by
  rw [Section.stripped, List.append_assoc, List.cons_append, get_head_start_lines (filler_no_bracket s.fillers),
    get_head_start_head hname hshort]
  simp only [Subtype.ext_iff]

/-- The sections before the one looked for are passed. -/
theorem get_head_start_sections {before : List Section} {name : Word}
    (h : ∀ s ∈ before, s.name ≠ name ∧ s.name.val.length < 64 ∧ starts s.name.val = true ∧
      ∀ p ∈ s.pairs, ∀ x ∈ strip p.value.text, is_bracket x = false) (ls : List (List Char)) :
    get_head_start (tail_text (before.flatMap (·.stripped) ++ ls)) name.val = get_head_start (tail_text ls) name.val := by
  induction before with
  | nil => rfl
  | cons s before ih =>
    rw [List.forall_mem_cons] at h
    obtain ⟨⟨hne, hshort, hname, hpairs⟩, hrest⟩ := h
    have hfree : ∀ l ∈ s.pairs.flatMap (·.stripped), ∀ c ∈ l, is_bracket c = false := by
      intro l hl
      obtain ⟨p, hp, hl⟩ := List.mem_flatMap.1 hl
      exact Pair.no_bracket (hpairs p hp) l hl
    rw [List.flatMap_cons, List.append_assoc, get_head_start_section hname hshort, if_neg hne,
      get_head_start_lines hfree, ih hrest]

theorem join_tail (ls : List (List Char)) (head : List Char) :
    get_head_start (join_lines ls) head = get_head_start (tail_text ls) head := by
  cases ls with
  | nil => rfl
  | cons l ls => exact (get_head_start_free ['\n'] (by decide) (join_lines (l :: ls)) head).symm

theorem get_key_after_head (ls : List (List Char)) (key : List Char) :
    get_key (after_head ls) key = get_key (tail_text ls) key := by
  cases ls with
  | nil => rfl
  | cons l ls => rfl

/-! ## The value -/

/-- `get_value` once the key was found. -/
theorem get_value_found (before after : Blanks) {size : Nat} {text key rest : List Char}
    (h : get_key text key = some (some (before.val ++ '=' :: (after.val ++ rest)))) :
    get_value size text key = get_next_key size rest := by
  have hequals : goto_next_char (before.val ++ '=' :: (after.val ++ rest)) '=' '\n' = some ('=' :: (after.val ++ rest)) := by
    rw [goto_next_char_skip fun c hc =>
      ⟨ne_of_is_blank (before.2 c hc) (by decide), ne_of_is_blank (before.2 c hc) (by decide)⟩,
      goto_next_char, if_neg (by decide), if_pos rfl]
  have hgap : ∀ c ∈ after.val, is_gap c = true := by
    intro c hc
    simp [is_gap, after.2 c hc]
  simp only [get_value, h, hequals, List.drop_one, List.tail_cons]
  exact get_next_key_gap hgap size rest

theorem get_next_key_plain {size : Nat} {w : Word} (hstart : starts w.val = true) (hshort : w.val.length < size)
    (ls : List (List Char)) : get_next_key size (w.val ++ tail_text ls) = some (some (w.val, some (tail_text ls))) := by
  have hall : w.val.takeWhile is_copied = w.val :=
    List.takeWhile_eq_self_iff.2 fun c hc => is_copied_of_is_name (w.2 c hc)
  have hhead := Word.head_append hstart []
  rw [List.append_nil] at hhead
  rw [get_next_key_line size hstart hhead, hall, if_neg (by omega), List.drop_length, List.nil_append]

/-- A string in quotes, or without the closing one at the end of a line. -/
theorem get_next_key_quoted (size : Nat) {s rest : List Char} (hs : ∀ c ∈ s, c ≠ '"' ∧ c ≠ '\n')
    (hstop : ∀ c ∈ rest.head?, c = '"' ∨ c = '\n') : get_next_key size ('"' :: (s ++ rest)) =
      if size ≤ s.length then none else some (some (s, advance ('"' :: (s ++ rest)) (s.length + 2))) := by
  have htake : (s ++ rest).takeWhile (fun c => c ≠ '\n' ∧ c ≠ '"') = s := by
    refine takeWhile_append_stop (fun c hc => decide_eq_true (hs c hc).symm) fun c hc => ?_
    rcases hstop c hc with rfl | rfl <;> rfl
  have hstart : goto_next_string ('"' :: (s ++ rest)) '[' = some ('"' :: (s ++ rest)) :=
    goto_next_string_start (by decide) (by decide)
  simp only [get_next_key, hstart, copy_to, copy_string_data, htake]
  split <;> rfl

/-- The value is read as it is written. -/
theorem get_next_key_fits {size : Nat} {v : Value} (hfits : v.Fits) (hshort : v.string.length < size)
    (ls : List (List Char)) :
    ∃ index, get_next_key size (strip v.text ++ tail_text ls) = some (some (v.string, index)) := by
  cases v with
  | plain w =>
    have hstrip : strip (Value.plain w).text = w.val := strip_self (strip_word w)
    exact ⟨some (tail_text ls), by rw [hstrip]; exact get_next_key_plain hfits hshort ls⟩
  | quoted s hs =>
    have hstrip : strip ('"' :: (s ++ ['"'])) = '"' :: (s ++ ['"']) :=
      strip_self (List.forall_mem_cons.2 ⟨by decide, List.forall_mem_append.2 ⟨hfits, by decide⟩⟩)
    have hstop : ∀ c ∈ ('"' :: tail_text ls).head?, c = '"' ∨ c = '\n' := by simp
    have hread := get_next_key_quoted size (fun c hc => ⟨(hs c hc).1, (hs c hc).2.1⟩) hstop
    rw [if_neg (show ¬size ≤ s.length from Nat.not_le_of_lt hshort)] at hread
    have htext : strip (Value.quoted s hs).text ++ tail_text ls = '"' :: (s ++ '"' :: tail_text ls) := by
      rw [Value.text, hstrip, List.cons_append, List.append_assoc]
      rfl
    rw [htext]
    exact ⟨_, hread⟩

/-! ## Values that are misread -/

/-- The next string does not begin with a quote. -/
def NoQuote (text : List Char) : Prop := ∀ cs, goto_next_string text '[' ≠ some ('"' :: cs)

theorem NoQuote.append {xs rest : List Char} (hxs : ∀ c ∈ xs, c ≠ '"') (h : NoQuote rest) : NoQuote (xs ++ rest) := by
  induction xs with
  | nil => exact h
  | cons x xs ih =>
    rw [List.forall_mem_cons] at hxs
    intro cs
    rw [List.cons_append, goto_next_string]
    split
    · simp
    · split
      · simp [hxs.1]
      · exact ih hxs.2 cs

theorem NoQuote.line {l : List Char} (hl : starts l = true) (hq : l.head? ≠ some '"') (rest : List Char) :
    NoQuote (l ++ rest) := by
  obtain ⟨c, cs, rfl, hc⟩ := starts_cons hl
  have hlimit : c ≠ '[' := by
    rintro rfl
    simp [is_string_start, is_alnum] at hc
  intro cs' h
  rw [List.cons_append, goto_next_string_start hlimit hc] at h
  exact hq (by simpa using (List.cons.inj (Option.some.inj h)).1)

theorem NoQuote.next {l : List Char} {ls : List (List Char)} (h : NoQuote (l ++ tail_text ls)) :
    NoQuote (tail_text (l :: ls)) := @NoQuote.append ['\n'] _ (by decide) h

theorem NoQuote.fillers (fs : List Filler) {ls : List (List Char)} (h : NoQuote (tail_text ls)) :
    NoQuote (tail_text (fs.map (·.blanks.val) ++ ls)) := by
  induction fs with
  | nil => exact h
  | cons f fs ih =>
    exact NoQuote.next (NoQuote.append (fun c hc => ne_of_is_blank (f.blanks.2 c hc) (by decide)) ih)

theorem NoQuote.pairs {ps : List Pair} (hstart : ∀ p ∈ ps, starts p.key.val = true) {ls : List (List Char)}
    (h : NoQuote (tail_text ls)) : NoQuote (tail_text (ps.flatMap (·.stripped) ++ ls)) := by
  cases ps with
  | nil => exact h
  | cons p ps =>
    have hp := hstart p List.mem_cons_self
    rw [List.flatMap_cons, Pair.stripped, List.append_assoc, List.append_assoc]
    exact NoQuote.fillers _ (NoQuote.next (NoQuote.line (Pair.starts_line hp) (Pair.line_head hp) _))

theorem NoQuote.later (later : List Section) (fs : List Filler) :
    NoQuote (tail_text (later.flatMap (·.stripped) ++ fs.map (·.blanks.val))) := by
  have hnil : NoQuote (tail_text []) := by simp [NoQuote, tail_text, goto_next_string]
  cases later with
  | nil => simpa using NoQuote.fillers fs hnil
  | cons s later =>
    rw [List.flatMap_cons, Section.stripped, List.append_assoc, List.append_assoc]
    refine NoQuote.fillers _ (NoQuote.next ?_)
    simp [NoQuote, Section.head, goto_next_string]

/-- A value that does not fit is not what is read. -/
theorem get_next_key_unfit {size : Nat} {v : Value} (hfits : ¬v.Fits) {ls : List (List Char)}
    (hls : NoQuote (tail_text ls)) (index : Option (List Char)) :
    get_next_key size (strip v.text ++ tail_text ls) ≠ some (some (v.string, index)) := by
  intro h
  cases v with
  | plain w =>
    have hstrip : strip (Value.plain w).text = w.val := strip_self (strip_word w)
    have hquote : NoQuote (w.val ++ tail_text ls) := NoQuote.append (fun c hc => Word.no_quote hc) hls
    rw [hstrip, get_next_key] at h
    cases hfound : goto_next_string (w.val ++ tail_text ls) '[' with
    | none => simp [hfound] at h
    | some found =>
      obtain ⟨c, cs, rfl, hc⟩ := goto_next_string_some hfound
      have hcq : c ≠ '"' := fun hc => hquote cs (hc ▸ hfound)
      have hcopy : (copy_string_data (c :: cs)).1 = c :: cs.takeWhile is_copied := by
        unfold copy_string_data
        split
        · rename_i heq
          exact absurd (List.cons.inj heq).1 hcq
        · rw [List.takeWhile_cons, if_pos (is_copied_of_start hc)]
      simp only [hfound, copy_to, hcopy] at h
      split at h
      · simp at h
      · simp only [Option.map_some, Option.some.injEq, Prod.mk.injEq] at h
        apply hfits
        have hw : w.val = c :: cs.takeWhile is_copied := h.1.symm
        simp [Value.Fits, hw, starts, hc]
  | quoted s hs =>
    have hcut : strip s ≠ s := by
      rw [strip, ne_eq, List.takeWhile_eq_self_iff]
      exact fun h => hfits fun c hc => of_decide_eq_true (h c hc)
    have hstrip : strip (Value.quoted s hs).text = '"' :: strip s := by
      have hcut' : ¬(strip s).length = s.length := fun h => hcut ((List.takeWhile_prefix _).eq_of_length h)
      have happend : strip (s ++ ['"']) = strip s := List.takeWhile_append.trans (if_neg hcut')
      rw [← happend]
      rfl
    have hstop : ∀ c ∈ (tail_text ls).head?, c = '"' ∨ c = '\n' := by
      cases ls <;> simp [tail_text]
    have hinner : ∀ c ∈ strip s, c ≠ '"' ∧ c ≠ '\n' := by
      intro c hc
      have h := hs c (List.takeWhile_subset _ hc)
      exact ⟨h.1, h.2.1⟩
    rw [hstrip, List.cons_append, get_next_key_quoted size hinner hstop] at h
    split at h
    · simp at h
    · simp only [Option.some.injEq, Prod.mk.injEq] at h
      exact hcut h.1

/-! ## Lookups -/

/-- What is before the first element with that key, and what is behind it. -/
theorem find_split {α β : Type} [DecidableEq β] {f : α → β} {k : β} {xs : List α} {a : α}
    (h : xs.find? (fun x => f x = k) = some a) : ∃ us vs, xs = us ++ a :: vs ∧ f a = k ∧ (∀ u ∈ us, f u ≠ k) ∧
      xs.takeWhile (fun x => f x ≠ k) = us := by
  obtain ⟨hk, us, vs, rfl, hus⟩ := List.find?_eq_some_iff_append.1 h
  have hne : ∀ u ∈ us, f u ≠ k := fun u hu => by simpa using hus u hu
  refine ⟨us, vs, rfl, of_decide_eq_true hk, hne, takeWhile_append_stop (fun u hu => decide_eq_true (hne u hu)) ?_⟩
  simpa using hk

/-- The lookup goes on behind the head of the section. -/
theorem lookup_section {size : Nat} {c : Config} {name : Word} {s : Section} (hshort : c.Short size)
    {sought : Word} (hplain : c.Plain name sought) (hs : c.find name = some s) :
    ∃ ls, (∀ key, get_key (tail_text ls) key = some none) ∧ NoQuote (tail_text ls) ∧
      ∀ key, get_value_from_ini size (preprocess_ini_data c.text) (some name.val) key =
        get_value size (after_head (s.pairs.flatMap (·.stripped) ++ ls)) key := by
  obtain ⟨before, later, hsections, hname, hne, htake⟩ := find_split hs
  obtain ⟨hbefore, hstart, -⟩ := hplain
  rw [htake] at hbefore
  refine ⟨later.flatMap (·.stripped) ++ c.fillers.map (·.blanks.val), get_key_end later c.fillers,
    NoQuote.later later c.fillers, fun key => ?_⟩
  have hpassed : ∀ t ∈ before, t.name ≠ name ∧ t.name.val.length < 64 ∧ starts t.name.val = true ∧
      ∀ p ∈ t.pairs, ∀ x ∈ strip p.value.text, is_bracket x = false := by
    intro t ht
    exact ⟨hne t ht, (hshort t (by simp [hsections, ht])).1, hbefore t ht⟩
  have hhead : get_head_start (preprocess_ini_data c.text) name.val = some (some (after_head
      (s.pairs.flatMap (·.stripped) ++ (later.flatMap (·.stripped) ++ c.fillers.map (·.blanks.val))))) := by
    rw [c.preprocess_text, join_tail, Config.stripped, hsections, List.flatMap_append, List.flatMap_cons,
      List.append_assoc, List.append_assoc, get_head_start_sections hpassed,
      get_head_start_section (hname ▸ hstart) (hshort s (by simp [hsections])).1, if_pos hname]
  simp only [get_value_from_ini, hhead]

section Section
variable {size : Nat} {s : Section} {key : Word} {ls : List (List Char)}

/-- A key that the section does not have. -/
theorem get_value_absent (hupto : ∀ p ∈ s.upto key, starts p.key.val = true)
    (hend : get_key (tail_text ls) key.val = some none) (habsent : s.find key = none) :
    get_value size (after_head (s.pairs.flatMap (·.stripped) ++ ls)) key.val = some none ↔ s.Fits key := by
  have hne : ∀ p ∈ s.pairs, p.key ≠ key := by simpa [Section.find] using habsent
  have htake : (s.pairs.takeWhile fun p => p.key ≠ key) = s.pairs :=
    List.takeWhile_eq_self_iff.2 fun p hp => decide_eq_true (hne p hp)
  have hstart : ∀ p ∈ s.pairs, starts p.key.val = true := by
    rwa [Section.upto, htake, habsent, Option.toList_none, List.append_nil] at hupto
  simp only [Section.Fits, htake, habsent, Option.mem_def, reduceCtorEq, false_implies, implies_true, and_true,
    get_value, get_key_after_head, get_key_pairs hstart (fun p hp => Pair.token_ne_key (hne p hp)), hend]
  by_cases h : ∀ p ∈ s.pairs, p.token.length < 32
  · simp only [if_pos h, true_iff]
    exact h
  · simp only [if_neg h, reduceCtorEq, false_iff]
    exact h

theorem upto_starts (hupto : ∀ p ∈ s.upto key, starts p.key.val = true) {p : Pair} (hp : s.find key = some p) {us : List Pair}
    (htake : (s.pairs.takeWhile fun p => p.key ≠ key) = us) :
    (∀ u ∈ us, starts u.key.val = true) ∧ starts p.key.val = true := by
  rw [Section.upto, htake, hp, Option.toList_some, List.forall_mem_append, List.forall_mem_singleton] at hupto
  exact hupto

/-- The first pair with the key, when it fits. -/
theorem get_value_present (hupto : ∀ p ∈ s.upto key, starts p.key.val = true) {p : Pair} (hp : s.find key = some p)
    (hkey : p.key.val.length < 32) (hvalue : p.value.string.length < size) (hfits : s.Fits key) :
    ∃ index, get_value size (after_head (s.pairs.flatMap (·.stripped) ++ ls)) key.val =
      some (some (p.value.string, index)) := by
  obtain ⟨us, vs, hpairs, rfl, hne, htake⟩ := find_split hp
  obtain ⟨htokens, hpair⟩ := hfits
  rw [htake] at htokens
  obtain ⟨hstart, hpstart⟩ := upto_starts hupto hp htake
  obtain ⟨hblank, hvfits⟩ := hpair p hp
  have hus := get_key_pairs hstart (fun u hu => Pair.token_ne_key (hne u hu))
    (p.stripped ++ (vs.flatMap (·.stripped) ++ ls))
  rw [if_pos htokens, get_key_pair hpstart hblank hkey] at hus
  obtain ⟨index, hread⟩ := get_next_key_fits hvfits hvalue (vs.flatMap (·.stripped) ++ ls)
  refine ⟨index, (get_value_found p.before p.after ?_).trans hread⟩
  rw [get_key_after_head, hpairs, List.flatMap_append, List.flatMap_cons, List.append_assoc, List.append_assoc, hus]
  simp

/-- A key that is not repeated is found only when its pair fits. -/
theorem get_value_fits (hupto : ∀ p ∈ s.upto key, starts p.key.val = true) {p : Pair} (hp : s.find key = some p)
    (hkey : p.key.val.length < 32) (hend : get_key (tail_text ls) key.val = some none) (hquote : NoQuote (tail_text ls))
    (honce : s.Once key) {index : Option (List Char)}
    (hread : get_value size (after_head (s.pairs.flatMap (·.stripped) ++ ls)) key.val =
      some (some (p.value.string, index))) : s.Fits key := by
  obtain ⟨us, vs, hpairs, rfl, hne, htake⟩ := find_split hp
  obtain ⟨hstart, hpstart⟩ := upto_starts hupto hp htake
  have hvs : ∀ v ∈ vs, v.key ≠ p.key ∧ starts v.key.val = true := by
    have hdrop : (s.pairs.dropWhile fun q => q.key ≠ p.key) = p :: vs := by
      have happend := (List.takeWhile_append_dropWhile (p := fun q => decide (q.key ≠ p.key)) (l := s.pairs)).trans hpairs
      rw [htake] at happend
      exact List.append_cancel_left happend
    rw [Section.Once, hdrop] at honce
    exact honce
  have hus := get_key_pairs hstart (fun u hu => Pair.token_ne_key (hne u hu))
    (p.stripped ++ (vs.flatMap (·.stripped) ++ ls))
  have htext : get_key (after_head (s.pairs.flatMap (·.stripped) ++ ls)) p.key.val =
      get_key (tail_text (us.flatMap (·.stripped) ++ (p.stripped ++ (vs.flatMap (·.stripped) ++ ls)))) p.key.val := by
    rw [get_key_after_head, hpairs, List.flatMap_append, List.flatMap_cons, List.append_assoc, List.append_assoc]
  -- A pair in front that does not fit ends the lookup before the key is reached.
  by_cases htokens : ∀ u ∈ us, u.token.length < 32
  · rw [if_pos htokens] at hus
    by_cases hblank : p.before.val = []
    · -- The key is not seen, and not behind it either.
      have hrest : ∀ q ∈ p :: vs, starts q.key.val = true := List.forall_mem_cons.2 ⟨hpstart, fun v hv => (hvs v hv).2⟩
      have hunseen : ∀ q ∈ p :: vs, q.token ≠ p.key.val :=
        List.forall_mem_cons.2 ⟨Pair.token_ne hblank, fun v hv => Pair.token_ne_key (hvs v hv).1⟩
      have hnone := get_key_pairs hrest hunseen ls
      rw [List.flatMap_cons, List.append_assoc, hend] at hnone
      rw [get_value, htext, hus, hnone] at hread
      split at hread <;> simp_all
    · rw [get_key_pair hpstart hblank hkey] at hus
      rw [hus] at htext
      refine ⟨by rw [htake]; exact htokens, fun q hq => ?_⟩
      obtain rfl := Option.some.inj (hp.symm.trans hq)
      refine ⟨hblank, ?_⟩
      -- A value that does not fit may be looked for in the later lines, where no string is in quotes.
      by_contra hvfits
      have hvquote : NoQuote (tail_text (vs.flatMap (·.stripped) ++ ls)) :=
        NoQuote.pairs (fun v hv => (hvs v hv).2) hquote
      refine get_next_key_unfit hvfits hvquote index ((get_value_found p.before p.after ?_).symm.trans hread)
      rw [htext]
      simp
  · rw [if_neg htokens] at hus
    rw [get_value, htext, hus] at hread
    simp at hread

end Section

/-- A lookup whose section fits meets its purpose, and it does so only then where
nothing behind the key can be taken for it. -/
theorem ini_round_trip {size : Nat} {c : Config} {name : Word} (key : Word) (hshort : c.Short size)
    (hplain : c.Plain name key) :
    ((∀ s ∈ c.find name, s.Fits key) → Meets size c name key) ∧
      ((∀ s ∈ c.find name, s.Once key) → Meets size c name key → ∀ s ∈ c.find name, s.Fits key) := by
  refine ⟨?_, ?_⟩
  · intro hfits s hs
    obtain ⟨ls, hend, hquote, hlookup⟩ := lookup_section hshort hplain hs
    have hmem := List.mem_of_find?_eq_some hs
    have hstart := hplain.2.2 s hs
    rw [hlookup]
    cases hp : s.find key with
    | none => exact (get_value_absent hstart (hend _) hp).2 (hfits s hs)
    | some p =>
      have hpshort := (hshort s hmem).2 p (List.mem_of_find?_eq_some hp)
      exact get_value_present hstart hp hpshort.1 hpshort.2 (hfits s hs)
  · intro honce hmeets s hs
    obtain ⟨ls, hend, hquote, hlookup⟩ := lookup_section hshort hplain hs
    have hmem := List.mem_of_find?_eq_some hs
    have hstart := hplain.2.2 s hs
    have hmeets := hmeets s hs
    rw [hlookup] at hmeets
    cases hp : s.find key with
    | none =>
      rw [hp] at hmeets
      exact (get_value_absent hstart (hend _) hp).1 hmeets
    | some p =>
      rw [hp] at hmeets
      obtain ⟨index, hread⟩ := hmeets
      have hpshort := (hshort s hmem).2 p (List.mem_of_find?_eq_some hp)
      exact get_value_fits hstart hp hpshort.1 (hend _) hquote (honce s hs) hread

/-- A comment, a value in quotes and a key of the second section, whose lines are
written with and without blanks. The key behind it begins with a dot. -/
theorem ini_round_trip_path : Meets 32
    ⟨[⟨[⟨⟨[], by decide⟩, [';', '[', 'a', ']'], by decide, by decide⟩], ⟨['a'], by decide⟩,
        [⟨[], ⟨['k'], by decide⟩, ⟨[], by decide⟩, ⟨[], by decide⟩, .quoted ['x', ' ', 'y'] (by decide)⟩]⟩,
      ⟨[⟨⟨[], by decide⟩, [], by decide, by decide⟩], ⟨['b'], by decide⟩,
        [⟨[], ⟨['n'], by decide⟩, ⟨[], by decide⟩, ⟨[], by decide⟩, .plain ⟨['1'], by decide⟩⟩,
         ⟨[], ⟨['p'], by decide⟩, ⟨['\t'], by decide⟩, ⟨[' '], by decide⟩, .quoted ['/', 'd', ' ', 'f'] (by decide)⟩,
         ⟨[], ⟨['.', 'q'], by decide⟩, ⟨[], by decide⟩, ⟨[], by decide⟩, .plain ⟨['2'], by decide⟩⟩]⟩], []⟩
    ⟨['b'], by decide⟩ ⟨['p'], by decide⟩ :=
  (ini_round_trip _ (by decide) (by decide)).1 (by decide)

/-- In `k=v` the key is not seen. -/
theorem unspaced_key_missed : ¬∀ (size : Nat) (c : Config) (name key : Word), c.Short size → Meets size c name key := by
  intro h
  let c : Config := ⟨[⟨[], ⟨['a'], by decide⟩,
    [⟨[], ⟨['k'], by decide⟩, ⟨[], by decide⟩, ⟨[], by decide⟩, .plain ⟨['v'], by decide⟩⟩]⟩], []⟩
  have hmeets := h 32 c ⟨['a'], by decide⟩ ⟨['k'], by decide⟩ (by decide) _ rfl
  obtain ⟨index, hread⟩ := hmeets
  have hnull : get_value_from_ini 32 (preprocess_ini_data c.text) (some ['a']) ['k'] = some none := by decide
  rw [hnull] at hread
  simp at hread

end McLinOS.Ini
