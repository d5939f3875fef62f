import McLinOS.Syscall.Format
/-!
# Reading a line of the table

What `get_line_data` and the scanners do at each kind of line.
-/
open CLib

namespace McLinOS.Syscall

/-! ## Characters -/

section Chars
variable {c : Char}

theorem blank_cases (h : is_blank c = true) : c = ' ' ∨ c = '\t' := by simpa [is_blank] using h

theorem blank_skipped (h : is_blank c = true) : c ≠ '\x00' ∧ is_string_start c = false := by
  rcases blank_cases h with rfl | rfl <;> decide

theorem blank_not_copied (h : is_blank c = true) : is_copied c = false := by
  rcases blank_cases h with rfl | rfl <;> decide

theorem blank_in_line (h : is_blank c = true) : c ≠ '\x00' ∧ c ≠ '\n' := by
  rcases blank_cases h with rfl | rfl <;> decide

theorem word_start (h : is_word c = true) : is_string_start c = true := by
  simp only [is_word, is_string_start, decide_eq_true_eq] at h ⊢
  exact h.imp_right .inl

theorem word_copied (h : is_word c = true) : is_copied c = true := by
  simp only [is_word, is_copied, decide_eq_true_eq] at h ⊢
  exact h.imp_right fun h => .inr (.inr h)

theorem word_plain (h : is_word c = true) : c ≠ '\x00' ∧ c ≠ '\n' ∧ c ≠ '"' := by
  refine ⟨?_, ?_, ?_⟩ <;> rintro rfl <;> exact absurd h (by decide)

theorem digit_word (h : is_digit c = true) : is_word c = true := by
  simp only [is_digit, is_word, is_alnum, decide_eq_true_eq] at h ⊢
  exact .inl (.inl h)

theorem abi_word (a : Abi) : a.text ≠ [] ∧ ∀ c ∈ a.text, is_word c = true := by
  cases a <;> decide

end Chars

/-! ## Fields -/

section Fields
variable {data : syscall} {offset i : Nat} {s : List Char}

theorem store_string_in (h : i < s.length) : store_string data offset s (offset + i) = s.getD i '\x00' := by
  have hin : offset ≤ offset + i ∧ offset + i < offset + s.length := by omega
  rw [store_string, if_pos hin, Nat.add_sub_cancel_left]

theorem store_string_end : store_string data offset s (offset + s.length) = '\x00' := by
  have hno : ¬(offset ≤ offset + s.length ∧ offset + s.length < offset + s.length) := by omega
  rw [store_string, if_neg hno, if_pos rfl]

theorem store_string_out (h : i < offset ∨ offset + s.length < i) : store_string data offset s i = data i := by
  have hno : ¬(offset ≤ i ∧ i < offset + s.length) := by omega
  have hne : i ≠ offset + s.length := by omega
  rw [store_string, if_neg hno, if_neg hne]

/-- The field is a string that is there with its NUL. -/
theorem field_eq (hlen : offset + s.length < 104) (hs : ∀ c ∈ s, c ≠ '\x00')
    (hdata : ∀ i < s.length, data (offset + i) = s.getD i '\x00') (hend : data (offset + s.length) = '\x00') :
    field data offset = s := by
  have hsplit : ((List.range (104 - offset)).map fun i => data (offset + i)) =
      s ++ (List.range (104 - offset - s.length)).map fun i => data (offset + (s.length + i)) := by
    have hlen' : 104 - offset = s.length + (104 - offset - s.length) := by omega
    rw [hlen', List.range_add, List.map_append, List.map_map, Nat.add_sub_cancel_left]
    congr 1
    refine List.ext_getElem (by simp) fun i h1 h2 => ?_
    rw [List.getElem_map, List.getElem_range, hdata i h2, List.getD_eq_getElem?_getD, List.getElem?_eq_getElem h2]
    rfl
  rw [field, hsplit]
  refine takeWhile_append_stop (fun c hc => by simpa using hs c hc) fun c hc => ?_
  obtain ⟨n, hn⟩ : ∃ n, 104 - offset - s.length = n + 1 := ⟨104 - offset - s.length - 1, by omega⟩
  rw [hn, List.range_succ_eq_map, List.map_cons, List.head?_cons] at hc
  obtain rfl := Option.some.inj hc
  simpa using hend

/-- A field begins with what is there up to a NUL. -/
theorem field_getD (hlen : offset + i < 104) (h : ∀ j ≤ i, data (offset + j) ≠ '\x00') :
    i < (field data offset).length ∧ (field data offset).getD i '\x00' = data (offset + i) := by
  have hsplit : ((List.range (104 - offset)).map fun i => data (offset + i)) =
      (List.range (i + 1)).map (fun j => data (offset + j)) ++
        (List.range (104 - offset - (i + 1))).map fun j => data (offset + (i + 1 + j)) := by
    have hlen' : 104 - offset = (i + 1) + (104 - offset - (i + 1)) := by omega
    rw [hlen', List.range_add, List.map_append, List.map_map, Nat.add_sub_cancel_left]
    rfl
  rw [field, hsplit, List.takeWhile_append_of_pos]
  · refine ⟨by simp; omega, ?_⟩
    rw [List.getD_append _ _ _ _ (by simp), List.getD_eq_getElem?_getD]
    simp
  · intro c hc
    obtain ⟨j, hj, rfl⟩ := List.mem_map.1 hc
    simpa using h j (by have := List.mem_range.1 hj; omega)

end Fields

/-! ## Lines -/

section Lines
variable {ls : List (List Char)}

/-- From inside a line the next data line is looked for in the lines behind. -/
theorem next_data_line {pre : List Char} (hpre : ∀ c ∈ pre, c ≠ '\x00' ∧ c ≠ '\n') :
    goto_next_data_line (pre ++ tail_text ls) = goto_next_string (tail_text ls) '\x00' := by
  rw [goto_next_data_line, goto_next_char_skip hpre]
  cases ls with
  | nil => rfl
  | cons l ls =>
    rw [tail_text, goto_next_char, if_neg (by decide), if_pos rfl]
    rfl

/-- Blank lines are skipped. -/
theorem goto_blank_lines {bs : List (List Char)} (hbs : ∀ b ∈ bs, ∀ c ∈ b, is_blank c = true) :
    goto_next_string (tail_text (bs ++ ls)) '\x00' = goto_next_string (tail_text ls) '\x00' := by
  induction bs with
  | nil => rfl
  | cons b bs ih =>
    rw [List.cons_append, tail_text, ← List.cons_append, goto_next_string_skip, ih fun b hb => hbs b (by simp [hb])]
    intro c hc
    rcases List.mem_cons.1 hc with rfl | hc
    · decide
    · exact blank_skipped (hbs b (by simp) c hc)

/-- The line behind its indentation. -/
def row.body (r : row) : List Char :=
  r.number ++ (r.gap_abi ++ (r.abi.text ++ (r.gap_name ++ (r.name ++ (r.gap_entry ++ (r.entry ++ r.rest))))))

theorem row.number_word (r : row) : ∀ c ∈ r.number, is_word c = true := fun c hc => digit_word (r.number_digits.2 c hc)

theorem row.body_plain (r : row) : ∀ c ∈ r.body, c ≠ '\x00' ∧ c ≠ '\n' := by
  have hword : ∀ {l : List Char}, (∀ c ∈ l, is_word c = true) → ∀ c ∈ l, c ≠ '\x00' ∧ c ≠ '\n' :=
    fun h c hc => ⟨(word_plain (h c hc)).1, (word_plain (h c hc)).2.1⟩
  have hblank : ∀ {l : List Char}, (∀ c ∈ l, is_blank c = true) → ∀ c ∈ l, c ≠ '\x00' ∧ c ≠ '\n' :=
    fun h c hc => blank_in_line (h c hc)
  intro c hc
  simp only [row.body, List.mem_append] at hc
  rcases hc with hc | hc | hc | hc | hc | hc | hc | hc
  · exact hword r.number_word c hc
  · exact hblank r.gap_abi_blank.2 c hc
  · exact hword (abi_word r.abi).2 c hc
  · exact hblank r.gap_name_blank.2 c hc
  · exact hword r.name_word.2 c hc
  · exact hblank r.gap_entry_blank.2 c hc
  · exact hword r.entry_word.2 c hc
  · exact hblank r.rest_blank c hc

theorem goto_row (r : row) :
    goto_next_string (tail_text (strip r.line :: ls)) '\x00' = some (r.body ++ tail_text ls) := by
  obtain ⟨c, cs, hcs⟩ := List.exists_cons_of_ne_nil r.number_digits.1
  have hc : is_word c = true := r.number_word c (by simp [hcs])
  rw [tail_text, r.parts, List.append_assoc, ← List.cons_append, goto_next_string_skip]
  · rw [show r.number ++ _ = r.body from rfl, row.body, hcs, List.cons_append, List.cons_append]
    exact goto_next_string_start (word_plain hc).1 (word_start hc)
  · intro x hx
    rcases List.mem_cons.1 hx with rfl | hx
    · decide
    · exact blank_skipped (r.indent_blank x hx)

/-- One field of a line. -/
theorem get_fields_word {offset : Nat} {offsets : List Nat} {number : Int} {gap word rest : List Char} {data : syscall}
    (hgap : ∀ c ∈ gap, is_blank c = true) (hne : word ≠ []) (hword : ∀ c ∈ word, is_word c = true)
    (hstop : ∀ c ∈ rest.head?, is_copied c = false) :
    get_fields (offset :: offsets) number (gap ++ (word ++ rest)) data =
      if 104 ≤ offset + word.length then none
      else get_fields offsets (number + 1) rest (store_string data offset word) := by
  have hfind : goto_next_string (gap ++ (word ++ rest)) '\x00' = some (word ++ rest) := by
    obtain ⟨c, cs, rfl⟩ := List.exists_cons_of_ne_nil hne
    have hc := hword c (by simp)
    rw [goto_next_string_skip fun x hx => blank_skipped (hgap x hx), List.cons_append]
    exact goto_next_string_start (word_plain hc).1 (word_start hc)
  have hcopy : copy_string_data (word ++ rest) = (word, word.length) :=
    copy_string_word hne (fun h => (word_plain (hword _ h)).2.2 rfl) (fun c hc => word_copied (hword c hc)) hstop
  have hin : ¬(word ++ rest).length < word.length := by simp
  rw [get_fields, hfind]
  dsimp only
  rw [hcopy]
  dsimp only
  rw [List.drop_left]
  simp only [hin, or_false]

/-- The record of a line. -/
def row.record (r : row) (data : syscall) : syscall :=
  store_string (store_string (store_string (store_string data 0 r.number) 8 r.abi.text) 40 r.name) 72 r.entry

theorem head_gap {gap rest : List Char} (hne : gap ≠ []) (hgap : ∀ c ∈ gap, is_blank c = true) :
    ∀ c ∈ (gap ++ rest).head?, is_copied c = false := by
  obtain ⟨c, cs, rfl⟩ := List.exists_cons_of_ne_nil hne
  intro x hx
  obtain rfl := Option.some.inj hx
  exact blank_not_copied (hgap _ (by simp))

theorem head_rest {rest : List Char} (hrest : ∀ c ∈ rest, is_blank c = true) :
    ∀ c ∈ (rest ++ tail_text ls).head?, is_copied c = false := by
  cases rest with
  | cons c cs => exact head_gap (by simp) hrest
  | nil =>
    cases ls with
    | nil => exact fun c hc => absurd hc (by simp [tail_text])
    | cons l ls =>
      intro c hc
      obtain rfl := Option.some.inj hc
      decide

/-- A data line gives its strings where they fit in the record, and an error
where no string follows it. -/
theorem get_line_row (r : row) (data : syscall) :
    get_line_data (r.body ++ tail_text ls) data =
      if r.number.length < 104 ∧ r.name.length < 64 ∧ r.entry.length < 32 then
        some (if goto_next_string (tail_text ls) '\x00' = none then -4 else 0, r.record data)
      else none := by
  have habi : r.abi.text.length < 96 := by cases r.abi <;> decide
  have hrest : goto_next_string (r.rest ++ tail_text ls) '\x00' = goto_next_string (tail_text ls) '\x00' :=
    goto_next_string_skip fun c hc => blank_skipped (r.rest_blank c hc)
  have hbody : r.body ++ tail_text ls = [] ++ (r.number ++ (r.gap_abi ++ (r.abi.text ++ (r.gap_name ++ (r.name ++
      (r.gap_entry ++ (r.entry ++ (r.rest ++ tail_text ls)))))))) := by
    simp only [row.body, List.append_assoc, List.nil_append]
  rw [get_line_data, hbody,
    get_fields_word (fun c hc => absurd hc List.not_mem_nil) r.number_digits.1 r.number_word
      (head_gap r.gap_abi_blank.1 r.gap_abi_blank.2),
    get_fields_word r.gap_abi_blank.2 (abi_word r.abi).1 (abi_word r.abi).2
      (head_gap r.gap_name_blank.1 r.gap_name_blank.2),
    get_fields_word r.gap_name_blank.2 r.name_word.1 r.name_word.2 (head_gap r.gap_entry_blank.1 r.gap_entry_blank.2),
    get_fields_word r.gap_entry_blank.2 r.entry_word.1 r.entry_word.2 (head_rest r.rest_blank), get_fields, hrest]
  -- The abi always fits, so the number, the name and the entry are what can leave the record.
  have habi' : ¬104 ≤ 8 + r.abi.text.length := by omega
  rw [if_neg habi']
  by_cases hfits : r.number.length < 104 ∧ r.name.length < 64 ∧ r.entry.length < 32
  · obtain ⟨h1, h2, h3⟩ := hfits
    rw [if_neg (by omega), if_neg (by omega), if_neg (by omega), if_pos ⟨h1, h2, h3⟩]
    cases goto_next_string (tail_text ls) '\x00' with
    | none => rfl
    | some index => rfl
  · rw [if_neg hfits]
    by_cases h1 : 104 ≤ 0 + r.number.length
    · rw [if_pos h1]
    · by_cases h2 : 104 ≤ 40 + r.name.length
      · rw [if_neg h1, if_pos h2]
      · rw [if_neg h1, if_neg h2, if_pos (by omega)]

/-! ## The record of a line -/

theorem record_number {r : row} (h : r.Fits) (data : syscall) : field (r.record data) 0 = r.number := by
  obtain ⟨hn, hname, hentry⟩ := h
  have hkeep : ∀ i < 8, r.record data i = store_string data 0 r.number i := by
    intro i hi
    rw [row.record, store_string_out (by omega), store_string_out (by omega), store_string_out (by omega)]
  refine field_eq (by omega) (fun c hc => (word_plain (r.number_word c hc)).1) (fun i hi => ?_) ?_
  · rw [hkeep _ (by omega), store_string_in hi]
  · rw [hkeep _ (by omega), store_string_end]

theorem record_entry {r : row} (h : r.entry.length < 32) (data : syscall) : field (r.record data) 72 = r.entry := by
  refine field_eq (by omega) (fun c hc => (word_plain (r.entry_word.2 c hc)).1) (fun i hi => ?_) ?_
  · rw [row.record, store_string_in hi]
  · rw [row.record, store_string_end]

/-- A number that does not fit is read together with the abi. -/
theorem record_digits {r : row} {data : syscall} (h : ∀ c ∈ field (r.record data) 0, is_digit c = true) :
    r.number.length < 8 := by
  by_contra hlong
  have hnul : ∀ {l : List Char} {i}, i < l.length → (∀ c ∈ l, is_word c = true) → l.getD i '\x00' ≠ '\x00' := by
    intro l i hi hl
    rw [List.getD_eq_getElem?_getD, List.getElem?_eq_getElem hi]
    exact (word_plain (hl _ (List.getElem_mem hi))).1
  have habi : 0 < r.abi.text.length := by cases r.abi <;> decide
  have habi' : r.abi.text.length < 32 := by cases r.abi <;> decide
  have hlow : ∀ i < 8, r.record data i = r.number.getD i '\x00' := by
    intro i hi
    rw [row.record, store_string_out (by omega), store_string_out (by omega), store_string_out (by omega),
      ← Nat.zero_add i, store_string_in (by omega), Nat.zero_add]
  have h8 : r.record data 8 = r.abi.text.getD 0 '\x00' := by
    rw [row.record, store_string_out (by omega), store_string_out (by omega)]
    exact store_string_in habi
  -- The number fills its 8 bytes and has no end, so the field runs into the first letter of the abi.
  have hin : ∀ j ≤ 8, r.record data (0 + j) ≠ '\x00' := by
    intro j hj
    rw [Nat.zero_add]
    rcases Nat.lt_or_eq_of_le hj with hj | rfl
    · rw [hlow j hj]
      exact hnul (by omega) r.number_word
    · rw [h8]
      exact hnul habi (abi_word r.abi).2
  obtain ⟨hlen, hget⟩ := field_getD (by omega) hin
  have hdigit : is_digit (r.abi.text.getD 0 '\x00') = true := by
    rw [← h8, ← Nat.zero_add 8, ← hget, List.getD_eq_getElem?_getD, List.getElem?_eq_getElem hlen]
    exact h _ (List.getElem_mem hlen)
  have hletter : is_digit (r.abi.text.getD 0 '\x00') = false := by cases r.abi <;> decide
  rw [hletter] at hdigit
  cases hdigit

end Lines

/-! ## Any line -/

section Any
variable {offsets : List Nat} {number err : Int} {index : List Char} {data data' : syscall}

/-- What is found does not depend on what was in the record. -/
theorem get_fields_indep (h : get_fields offsets number index data = some (err, data')) (other : syscall) :
    ∃ other', get_fields offsets number index other = some (err, other') := by
  induction offsets generalizing number index data other with
  | nil =>
    unfold get_fields at h ⊢
    split at h <;> obtain ⟨rfl, rfl⟩ := Prod.mk.inj (Option.some.inj h) <;> exact ⟨other, rfl⟩
  | cons offset offsets ih =>
    unfold get_fields at h ⊢
    split at h
    · obtain ⟨rfl, rfl⟩ := Prod.mk.inj (Option.some.inj h)
      exact ⟨other, rfl⟩
    · dsimp only at h ⊢
      split at h
      · cases h
      · rename_i hfits
        rw [if_neg hfits]
        exact ih h _

theorem get_fields_err (hnumber : 0 ≤ number) (h : get_fields offsets number index data = some (err, data')) : err ≤ 0 := by
  induction offsets generalizing number index data with
  | nil =>
    unfold get_fields at h
    split at h <;> obtain ⟨rfl, -⟩ := Prod.mk.inj (Option.some.inj h) <;> omega
  | cons offset offsets ih =>
    unfold get_fields at h
    split at h
    · obtain ⟨rfl, -⟩ := Prod.mk.inj (Option.some.inj h)
      omega
    · dsimp only at h
      split at h
      · cases h
      · exact ih (by omega) h

/-- The later fields leave the bytes before them alone. -/
theorem get_fields_before {n : Nat} (hoffsets : ∀ o ∈ offsets, n ≤ o)
    (h : get_fields offsets number index data = some (err, data')) {i : Nat} (hi : i < n) : data' i = data i := by
  induction offsets generalizing number index data with
  | nil =>
    unfold get_fields at h
    split at h <;> obtain ⟨-, rfl⟩ := Prod.mk.inj (Option.some.inj h) <;> rfl
  | cons offset offsets ih =>
    unfold get_fields at h
    split at h
    · obtain ⟨-, rfl⟩ := Prod.mk.inj (Option.some.inj h)
      rfl
    · dsimp only at h
      split at h
      · cases h
      · rw [ih (fun o ho => hoffsets o (by simp [ho])) h, store_string_out]
        have := hoffsets offset (by simp)
        omega

/-- A line that is not read stops the reading, whatever the record holds. -/
theorem stops_of (h : get_line_data index data = some (err, data')) (herr : err ≠ 0) : Stops index := by
  intro other
  obtain ⟨other', hother⟩ := get_fields_indep h other
  have hle := get_fields_err (by omega) h
  exact ⟨err, other', hother, by omega⟩

/-- A field that begins with a digit comes from a string that does. -/
theorem first_char {cs : List Char} {c : Char} (hindex : goto_next_string (c :: cs) '\x00' = some (c :: cs))
    (h : get_line_data (c :: cs) data = some (err, data')) :
    ∀ x ∈ (field data' 0).head?, x ∈ (copy_string_data (c :: cs)).1.head? := by
  unfold get_line_data get_fields at h
  rw [hindex] at h
  dsimp only at h
  split at h
  · cases h
  · have h0 : data' 0 = store_string data 0 (copy_string_data (c :: cs)).1 0 :=
      get_fields_before (n := 8) (by decide) h (by omega)
    have hhead : (field data' 0).head? = if data' 0 ≠ '\x00' then some (data' 0) else none := by
      rw [field, List.range_succ_eq_map, List.map_cons, List.takeWhile_cons, Nat.add_zero]
      by_cases hz : data' 0 = '\x00'
      · simp [hz]
      · simp [hz]
    intro x hx
    rw [hhead] at hx
    split at hx
    · obtain rfl := Option.some.inj hx
      rename_i hz
      cases hs : (copy_string_data (c :: cs)).1 with
      | nil =>
        rw [hs] at h0
        exact absurd (h0.trans store_string_end) hz
      | cons y ys =>
        rw [h0, hs, ← Nat.zero_add 0, store_string_in (by simp)]
        rfl
    · cases hx

end Any

end McLinOS.Syscall
