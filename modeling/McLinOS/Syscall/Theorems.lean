import McLinOS.Syscall.Lines
/-!
# The system call table

The two passes read the same lines; which those are for a table of the format;
and what the dispatcher then does.
-/
open CLib

namespace McLinOS.Syscall

/-! ## The lines read -/

/-- From `text_data` on the lines `recs` are read, and then the reading stops. -/
inductive Reads (m : Machine) : List Char → syscall → List (List Char × List Char) → Prop where
  | stop {text_data : List Char} {data data' : syscall} (h : get_next_line_data m text_data data = some (none, data')) :
      Reads m text_data data []
  | line {text_data index : List Char} {data data' : syscall} {recs : List (List Char × List Char)}
      (h : get_next_line_data m text_data data = some (some index, data')) (hrest : Reads m index data' recs) :
      Reads m text_data data ((field data' 0, field data' 72) :: recs)

section Passes
variable {m : Machine} {text_data : List Char} {data : syscall}

theorem Reads.det {recs recs' : List (List Char × List Char)} (h : Reads m text_data data recs)
    (h' : Reads m text_data data recs') : recs = recs' := by
  induction h generalizing recs' with
  | stop hline =>
    cases h' with
    | stop => rfl
    | line hline' => cases hline.symm.trans hline'
  | line hline hrest ih =>
    cases h' with
    | stop hline' => cases hline.symm.trans hline'
    | line hline' hrest' =>
      obtain ⟨rfl, rfl⟩ := by simpa using hline.symm.trans hline'
      rw [ih hrest']

/-- The first pass ends with the largest of the numbers read. -/
theorem numbers_loop {number v fuel : Nat}
    (h : loop (numbers_turn m) fuel (text_data, data, number) = some (some v)) :
    ∃ recs, Reads m text_data data recs ∧ v = u32 ((recs.map fun r => str_to_uint32 r.1).foldl max number + 1) := by
  induction fuel generalizing text_data data number with
  | zero => cases h
  | succ fuel ih =>
    cases hline : get_next_line_data m text_data data with
    | none =>
      rw [loop_done (by simp only [numbers_turn, hline]; rfl)] at h
      cases h
    | some r =>
      obtain ⟨index, data'⟩ := r
      cases index with
      | none =>
        rw [loop_done (by simp only [numbers_turn, hline]; rfl)] at h
        exact ⟨[], .stop hline, (Option.some.inj (Option.some.inj h)).symm⟩
      | some index =>
        rw [loop_cont (by simp only [numbers_turn, hline]; rfl)] at h
        obtain ⟨recs, hrecs, rfl⟩ := ih h
        exact ⟨_, .line hline hrecs, rfl⟩

theorem numbers_of_reads {recs : List (List Char × List Char)} (h : Reads m text_data data recs) (number : Nat) :
    ∃ fuel, loop (numbers_turn m) fuel (text_data, data, number) =
      some (some (u32 ((recs.map fun r => str_to_uint32 r.1).foldl max number + 1))) := by
  induction h generalizing number with
  | stop hline => exact ⟨1, loop_done (by simp only [numbers_turn, hline]; rfl) 0⟩
  | line hline hrest ih =>
    obtain ⟨fuel, hfuel⟩ := ih _
    exact ⟨fuel + 1, (loop_cont (by simp only [numbers_turn, hline]) fuel).trans hfuel⟩

/-- The loading of lines. -/
def load_lines (m : Machine) : List (List Char × List Char) → State → Option State
  | [], st => some st
  | r :: recs, st => (load_syscall m r.1 r.2 st).bind (load_lines m recs)

theorem load_loop {st st' : State} {fuel : Nat} (h : loop (load_turn m) fuel (text_data, data, st) = some (some st')) :
    ∃ recs, Reads m text_data data recs ∧ load_lines m recs st = some st' := by
  induction fuel generalizing text_data data st with
  | zero => cases h
  | succ fuel ih =>
    cases hline : get_next_line_data m text_data data with
    | none =>
      rw [loop_done (by simp only [load_turn, hline]; rfl)] at h
      cases h
    | some r =>
      obtain ⟨index, data'⟩ := r
      cases index with
      | none =>
        rw [loop_done (by simp only [load_turn, hline]; rfl)] at h
        exact ⟨[], .stop hline, Option.some.inj h⟩
      | some index =>
        cases hload : load_syscall m (field data' 0) (field data' 72) st with
        | none =>
          rw [loop_done (by simp only [load_turn, hline, hload]; rfl)] at h
          cases h
        | some st₁ =>
          rw [loop_cont (by simp only [load_turn, hline, hload]; rfl)] at h
          obtain ⟨recs, hrecs, hst⟩ := ih h
          exact ⟨_, .line hline hrecs, by rw [load_lines, hload]; exact hst⟩

theorem load_of_reads {recs : List (List Char × List Char)} (h : Reads m text_data data recs) {st st' : State}
    (hload : load_lines m recs st = some st') :
    ∃ fuel, loop (load_turn m) fuel (text_data, data, st) = some (some st') := by
  induction h generalizing st with
  | stop hline =>
    obtain rfl := Option.some.inj hload
    exact ⟨1, loop_done (by simp only [load_turn, hline]) 0⟩
  | line hline hrest ih =>
    rw [load_lines] at hload
    obtain ⟨st₁, hload₁, hload₂⟩ := Option.bind_eq_some_iff.1 hload
    obtain ⟨fuel, hfuel⟩ := ih hload₂
    exact ⟨fuel + 1, (loop_cont (by simp only [load_turn, hline, hload₁]) fuel).trans hfuel⟩

end Passes

/-! ## The end of the reading -/

section Stop
variable {m : Machine} {text_data index : List Char} {data data' : syscall}

theorem reads_of_stops (hgoto : goto_next_data_line text_data = some index) (h : Stops index) (data : syscall) :
    Reads m text_data data [] := by
  obtain ⟨err, data', hline, herr⟩ := h data
  have hne : ¬err = 0 := by omega
  have hread : get_next_line_data m text_data data = some (none, data') := by
    simp only [get_next_line_data, hgoto, hline, if_neg hne]
  exact .stop hread

theorem stops_of_read (hgoto : goto_next_data_line text_data = some index)
    (h : get_next_line_data m text_data data = some (none, data')) : Stops index := by
  simp only [get_next_line_data, hgoto] at h
  split at h
  · cases h
  · rename_i err data₁ hget
    refine stops_of hget fun hzero => ?_
    rw [if_pos hzero] at h
    cases h

/-- A line that was read. -/
theorem line_of_read (h : get_next_line_data m text_data data = some (some index, data')) :
    goto_next_data_line text_data = some index ∧ get_line_data index data = some (0, data') := by
  unfold get_next_line_data at h
  split at h
  · split at h <;> cases h
  · rename_i index' hgoto
    split at h
    · cases h
    · rename_i err data₁ hget
      by_cases hzero : err = 0
      · rw [if_pos hzero] at h
        obtain ⟨hindex, rfl⟩ := Prod.mk.inj (Option.some.inj h)
        obtain rfl := Option.some.inj hindex
        exact ⟨hgoto, hzero ▸ hget⟩
      · rw [if_neg hzero] at h
        cases h

end Stop

/-! ## The lines of a table -/

section Table
variable {m : Machine} {text_data : List Char} {data : syscall} {rows : List (row × List (List Char))}
  {ls : List (List Char)}

def records (rows : List (row × List (List Char))) : List (List Char × List Char) :=
  rows.map fun p => (p.1.number, p.1.entry)

theorem strip_row_lines (p : row × List (List Char)) (rows : List (row × List (List Char))) :
    (row_lines (p :: rows)).map strip ++ ls =
      strip p.1.line :: (p.2.map strip ++ ((row_lines rows).map strip ++ ls)) := by
  simp [row_lines]

/-- The first data line in front of which `text_data` is. -/
theorem next_row (data : syscall) {p : row × List (List Char)} (hblank : ∀ l ∈ p.2, blank_line l)
    (h : goto_next_data_line text_data = goto_next_string (tail_text ((row_lines (p :: rows)).map strip ++ ls)) '\x00') :
    ∃ rest, goto_next_data_line text_data = some (p.1.body ++ rest) ∧
      goto_next_data_line (p.1.body ++ rest) =
        goto_next_string (tail_text ((row_lines rows).map strip ++ ls)) '\x00' ∧
      get_line_data (p.1.body ++ rest) data =
        if p.1.number.length < 104 ∧ p.1.name.length < 64 ∧ p.1.entry.length < 32 then
          some (if goto_next_string (tail_text ((row_lines rows).map strip ++ ls)) '\x00' = none then -4 else 0,
            p.1.record data)
        else none := by
  have hskip : goto_next_string (tail_text (p.2.map strip ++ ((row_lines rows).map strip ++ ls))) '\x00' =
      goto_next_string (tail_text ((row_lines rows).map strip ++ ls)) '\x00' := by
    refine goto_blank_lines fun b hb => ?_
    obtain ⟨l, hl, rfl⟩ := List.mem_map.1 hb
    exact hblank l hl
  rw [strip_row_lines, goto_row] at h
  refine ⟨_, h, ?_, ?_⟩
  · rw [next_data_line p.1.body_plain, hskip]
  · rw [get_line_row, hskip]

/-- The text begins with a string where a data line follows. -/
theorem goto_rows_ne_none {p : row × List (List Char)} :
    goto_next_string (tail_text ((row_lines (p :: rows)).map strip ++ ls)) '\x00' ≠ none := by
  rw [strip_row_lines, goto_row]
  exact Option.some_ne_none _

/-- Lines that fit are read, up to a text that stops the reading. -/
theorem reads_rows (hblank : ∀ p ∈ rows, ∀ l ∈ p.2, blank_line l) (hfits : ∀ p ∈ rows, p.1.Fits)
    {index : List Char} (hindex : goto_next_string (tail_text ls) '\x00' = some index) (hstops : Stops index)
    (h : goto_next_data_line text_data = goto_next_string (tail_text ((row_lines rows).map strip ++ ls)) '\x00') :
    Reads m text_data data (records rows) := by
  induction rows generalizing text_data data with
  | nil => exact reads_of_stops (h.trans hindex) hstops data
  | cons p rows ih =>
    obtain ⟨rest, hgoto, hnext, hline⟩ := next_row data (hblank p (by simp)) h
    obtain ⟨hnumber, hname, hentry⟩ := hfits p (by simp)
    -- Something follows the line, for a last line is answered with an error.
    have hmore : goto_next_string (tail_text ((row_lines rows).map strip ++ ls)) '\x00' ≠ none := by
      cases rows with
      | nil => exact fun h => absurd (hindex.symm.trans h) (Option.some_ne_none _)
      | cons q rows => exact goto_rows_ne_none
    rw [if_pos ⟨by omega, hname, hentry⟩, if_neg hmore] at hline
    have hread : get_next_line_data m text_data data = some (some (p.1.body ++ rest), p.1.record data) := by
      simp only [get_next_line_data, hgoto, hline, if_pos]
    have hrest := Reads.line hread (ih (fun p hp => hblank p (by simp [hp])) (fun p hp => hfits p (by simp [hp])) hnext)
    rwa [record_number ⟨hnumber, hname, hentry⟩, record_entry hentry] at hrest

/-- Where the lines of the table are what was read, they fit, and what follows
stops the reading. -/
theorem reads_rows_inv (hblank : ∀ p ∈ rows, ∀ l ∈ p.2, blank_line l)
    (h : goto_next_data_line text_data = goto_next_string (tail_text ((row_lines rows).map strip ++ ls)) '\x00')
    (hread : Reads m text_data data (records rows)) :
    (∀ p ∈ rows, p.1.Fits) ∧ ((∃ index, goto_next_string (tail_text ls) '\x00' = some index) →
      ∃ index, goto_next_string (tail_text ls) '\x00' = some index ∧ Stops index) ∧
      (rows ≠ [] → ∃ index, goto_next_string (tail_text ls) '\x00' = some index) := by
  generalize hrecs : records rows = recs at hread
  induction hread generalizing rows with
  | @stop text_data data data' hline =>
    obtain rfl : rows = [] := List.map_eq_nil_iff.1 hrecs
    refine ⟨fun p hp => absurd hp List.not_mem_nil, ?_, fun h => absurd rfl h⟩
    rintro ⟨index, hindex⟩
    exact ⟨index, hindex, stops_of_read (h.trans hindex) hline⟩
  | @line text_data index data data' recs hline hrest ih =>
    cases rows with
    | nil => cases hrecs
    | cons p rows =>
      obtain ⟨hrec, htail⟩ := List.cons.inj hrecs
      obtain ⟨rest, hgoto, hnext, hget⟩ := next_row data (hblank p (by simp)) h
      obtain ⟨hindex, hline⟩ := line_of_read hline
      obtain rfl := Option.some.inj (hgoto.symm.trans hindex)
      rw [hget] at hline
      split at hline
      · rename_i hfits
        obtain ⟨herr, rfl⟩ := Prod.mk.inj (Option.some.inj hline)
        have hmore : goto_next_string (tail_text ((row_lines rows).map strip ++ ls)) '\x00' ≠ none := by
          intro hnone
          rw [if_pos hnone] at herr
          cases herr
        -- A number that was read as it stands had room for its end.
        obtain ⟨hnumber, -⟩ := Prod.mk.inj hrec
        have hshort : p.1.number.length < 8 := record_digits (by rw [← hnumber]; exact p.1.number_digits.2)
        obtain ⟨ih₁, ih₂, ih₃⟩ := ih (fun p hp => hblank p (by simp [hp])) hnext htail
        have hlast : ∃ index, goto_next_string (tail_text ls) '\x00' = some index := by
          cases rows with
          | nil => exact Option.ne_none_iff_exists'.1 hmore
          | cons q rows => exact ih₃ (List.cons_ne_nil _ _)
        refine ⟨fun q hq => ?_, ih₂, fun _ => hlast⟩
        rcases List.mem_cons.1 hq with rfl | hq
        · exact ⟨hshort, hfits.2⟩
        · exact ih₁ q hq
      · cases hline

end Table

/-! ## A whole table -/

section Whole
variable {m : Machine} {data : syscall} {t : Table}

theorem plain_strip {l : List Char} (h : blank_line l) : ∀ c ∈ strip l, c ≠ '\x00' ∧ c ≠ '\n' :=
  fun c hc => blank_in_line (h c hc)

/-- With a header the first data line is found. -/
theorem next_header (h : t.header ≠ []) : goto_next_data_line (preprocess_ini_data t.text) =
    goto_next_string (tail_text ((row_lines t.rows).map strip ++ t.trailing.map strip)) '\x00' := by
  obtain ⟨l, hs, hcons⟩ := List.exists_cons_of_ne_nil h
  have hl : blank_line l := t.header_blank l (by simp [hcons])
  rw [Table.text, preprocess_lines t.one_line, hcons, List.cons_append, List.cons_append, List.map_cons, join_lines,
    next_data_line (plain_strip hl), List.map_append, List.map_append, List.append_assoc, goto_blank_lines]
  intro b hb
  obtain ⟨x, hx, rfl⟩ := List.mem_map.1 hb
  exact t.header_blank x (by simp [hcons, hx])

/-- Without one the first data line is passed over. -/
theorem next_no_header {p : row × List (List Char)} {rows : List (row × List (List Char))} (h : t.header = [])
    (hrows : t.rows = p :: rows) : goto_next_data_line (preprocess_ini_data t.text) =
    goto_next_string (tail_text ((row_lines rows).map strip ++ t.trailing.map strip)) '\x00' := by
  have hline : ∀ c ∈ strip p.1.line, c ≠ '\x00' ∧ c ≠ '\n' := by
    intro c hc
    rw [p.1.parts, List.mem_append] at hc
    rcases hc with hc | hc
    · exact blank_in_line (p.1.indent_blank c hc)
    · exact p.1.body_plain c hc
  rw [Table.text, preprocess_lines t.one_line, h, hrows, List.nil_append, List.map_append, strip_row_lines, join_lines,
    next_data_line hline, goto_blank_lines]
  intro b hb
  obtain ⟨x, hx, rfl⟩ := List.mem_map.1 hb
  exact t.rows_blank p (by simp [hrows]) x hx

theorem reads_none :
    Reads m (preprocess_ini_data t.text) data [] ↔
      match goto_next_data_line (preprocess_ini_data t.text) with
      | none => m.null_ok = true
      | some index => Stops index := by
  cases hgoto : goto_next_data_line (preprocess_ini_data t.text) with
  | none =>
    constructor
    · rintro ⟨hline⟩
      unfold get_next_line_data at hline
      rw [hgoto] at hline
      dsimp only at hline
      split at hline
      · assumption
      · cases hline
    · intro hok
      have hread : get_next_line_data m (preprocess_ini_data t.text) data = some (none, data) := by
        simp only [get_next_line_data, hgoto, if_pos hok]
      exact .stop hread
  | some index =>
    constructor
    · rintro ⟨hline⟩
      exact stops_of_read hgoto hline
    · exact fun hstops => reads_of_stops hgoto hstops data

/-- Without a header another line is read in place of the first. -/
theorem no_header_reads {p : row × List (List Char)} {rows : List (row × List (List Char))} (h : t.header = [])
    (hrows : t.rows = p :: rows) : ¬Reads m (preprocess_ini_data t.text) data (records t.rows) := by
  have hnext := next_no_header h hrows
  rw [hrows]
  intro hread
  generalize hrec : records (p :: rows) = recs at hread
  cases hread with
  | stop => cases hrec
  | @line _ index _ data' recs hline hrest =>
    obtain ⟨hnumber, -⟩ := Prod.mk.inj (List.cons.inj hrec).1
    obtain ⟨hindex, hget⟩ := line_of_read hline
    cases rows with
    | nil =>
      have hfound : goto_next_string (tail_text (t.trailing.map strip)) '\x00' = some index := hnext.symm.trans hindex
      obtain ⟨c, cs, rfl, hc⟩ := goto_next_string_some hfound
      have hnul : c ≠ '\x00' := by
        rintro rfl
        cases hc
      obtain ⟨x, xs, hx⟩ := List.exists_cons_of_ne_nil p.1.number_digits.1
      have hhead : x ∈ (field data' 0).head? := by rw [← hnumber, hx]; rfl
      have hno := t.trailing_text _ hfound x (first_char (goto_next_string_start hnul hc) hget x hhead)
      rw [p.1.number_digits.2 x (by simp [hx])] at hno
      cases hno
    | cons q rows =>
      obtain ⟨rest, hgoto, -, hrow⟩ := next_row data (t.rows_blank q (by simp [hrows])) hnext
      obtain rfl := Option.some.inj (hgoto.symm.trans hindex)
      rw [hget] at hrow
      split at hrow
      · rename_i hfits
        obtain ⟨-, rfl⟩ := Prod.mk.inj (Option.some.inj hrow)
        have hshort : q.1.number.length < 8 := record_digits (by rw [← hnumber]; exact p.1.number_digits.2)
        rw [record_number ⟨hshort, hfits.2⟩] at hnumber
        have hdistinct := t.distinct
        simp [hrows, row.value, hnumber] at hdistinct
      · cases hrow

/-- The lines of the table are read exactly when they fit, there is a header, and
something that is no line follows. -/
theorem reads_iff : Reads m (preprocess_ini_data t.text) data (records t.rows) ↔ t.Read m := by
  unfold Table.Read
  by_cases hrows : t.rows = []
  · rw [if_pos hrows, hrows]
    exact reads_none
  rw [if_neg hrows]
  constructor
  · intro hread
    by_cases hheader : t.header = []
    · obtain ⟨p, rows, hcons⟩ := List.exists_cons_of_ne_nil hrows
      exact absurd hread (no_header_reads hheader hcons)
    · obtain ⟨hfits, hstops, hmore⟩ := reads_rows_inv t.rows_blank (next_header hheader) hread
      exact ⟨hheader, hfits, hstops (hmore hrows)⟩
  · rintro ⟨hheader, hfits, index, hindex, hstops⟩
    exact reads_rows t.rows_blank hfits hindex hstops (next_header hheader)

end Whole

/-! ## Numbers -/

section Numbers

theorem digit_toNat {c : Char} (h : is_digit c = true) : 48 ≤ c.toNat ∧ c.toNat ≤ 57 := by
  simp only [is_digit, decide_eq_true_eq, Char.le_def, UInt32.le_iff_toNat_le] at h
  exact h

theorem str_to_uint32_from {s : List Char} (h : ∀ c ∈ s, is_digit c = true) (v : Nat) :
    s.foldl (fun result c => u32 (result * 10 + u32sub c.toNat 48)) (u32 v) =
      u32 (s.foldl (fun v c => v * 10 + (c.toNat - 48)) v) := by
  induction s generalizing v with
  | nil => rfl
  | cons c cs ih =>
    obtain ⟨h1, h2⟩ := digit_toNat (h c (by simp))
    have hstep : u32 (u32 v * 10 + u32sub c.toNat 48) = u32 (v * 10 + (c.toNat - 48)) := by
      rw [u32sub_of_le h1 (by omega)]
      unfold u32
      omega
    rw [List.foldl_cons, List.foldl_cons, hstep, ih fun c hc => h c (by simp [hc])]

theorem digits_lt {s : List Char} (h : ∀ c ∈ s, is_digit c = true) {v k : Nat} (hv : v < 10 ^ k) :
    s.foldl (fun v c => v * 10 + (c.toNat - 48)) v < 10 ^ (k + s.length) := by
  induction s generalizing v k with
  | nil => exact hv
  | cons c cs ih =>
    obtain ⟨h1, h2⟩ := digit_toNat (h c (by simp))
    have hstep : v * 10 + (c.toNat - 48) < 10 ^ (k + 1) := by
      rw [Nat.pow_succ]
      omega
    rw [List.foldl_cons, List.length_cons, Nat.add_comm cs.length, ← Nat.add_assoc]
    exact ih (fun c hc => h c (by simp [hc])) hstep

theorem row.value_lt {r : row} (h : r.number.length < 8) : r.value < 10 ^ 7 := by
  have hlt := digits_lt r.number_digits.2 (Nat.pow_pos (n := 0) (by decide : 0 < 10))
  rw [Nat.zero_add] at hlt
  exact Nat.lt_of_lt_of_le hlt (Nat.pow_le_pow_right (by decide) (by omega))

/-- A number of at most seven digits is read as it is. -/
theorem row.read_value {r : row} (h : r.number.length < 8) : str_to_uint32 r.number = r.value := by
  have hlt := r.value_lt h
  rw [str_to_uint32, show (0 : Nat) = u32 0 from rfl, str_to_uint32_from r.number_digits.2]
  exact u32_of_lt (by unfold row.value at hlt; omega)

theorem foldl_max_le {l : List Nat} {a b : Nat} (ha : a ≤ b) (hl : ∀ x ∈ l, x ≤ b) : l.foldl max a ≤ b := by
  induction l generalizing a with
  | nil => exact ha
  | cons x xs ih => exact ih (Nat.max_le.2 ⟨ha, hl x (by simp)⟩) fun x hx => hl x (by simp [hx])

theorem le_foldl_max {l : List Nat} {a x : Nat} (h : x = a ∨ x ∈ l) : x ≤ l.foldl max a := by
  induction l generalizing a x with
  | nil => exact Nat.le_of_eq (h.resolve_right List.not_mem_nil)
  | cons y ys ih =>
    rw [List.foldl_cons]
    rcases h with rfl | h
    · exact Nat.le_trans (Nat.le_max_left x y) (ih (.inl rfl))
    · rcases List.mem_cons.1 h with rfl | h
      · exact Nat.le_trans (Nat.le_max_right a x) (ih (.inl rfl))
      · exact ih (.inr h)

end Numbers

/-! ## Loading and calling -/

section Load
variable {m : Machine} {t : Table}

/-- The table with the functions of the rows put in. -/
def fill (m : Machine) (rows : List (row × List (List Char))) (syscall_table : List Nat) : List Nat :=
  rows.foldl (fun tb p => tb.set p.1.value (find_table_by_fnname m p.1.entry)) syscall_table

theorem length_fill (rows : List (row × List (List Char))) (tb : List Nat) : (fill m rows tb).length = tb.length := by
  induction rows generalizing tb with
  | nil => rfl
  | cons p rows ih => exact (ih _).trans List.length_set

theorem fill_getElem {rows : List (row × List (List Char))} (hdistinct : (rows.map (·.1.value)).Nodup) {tb : List Nat}
    {n : Nat} (hn : n < tb.length) : (fill m rows tb)[n]? =
      match rows.find? (fun p => p.1.value = n) with
      | some p => some (find_table_by_fnname m p.1.entry)
      | none => tb[n]? := by
  induction rows generalizing tb with
  | nil => rfl
  | cons p rows ih =>
    rw [List.map_cons, List.nodup_cons] at hdistinct
    have hset : n < (tb.set p.1.value (find_table_by_fnname m p.1.entry)).length := by rwa [List.length_set]
    rw [show fill m (p :: rows) tb = fill m rows (tb.set p.1.value (find_table_by_fnname m p.1.entry)) from rfl,
      ih hdistinct.2 hset, List.find?_cons]
    by_cases hp : p.1.value = n
    · subst hp
      have hother : rows.find? (fun q => q.1.value = p.1.value) = none := by
        rw [List.find?_eq_none]
        intro q hq heq
        exact hdistinct.1 (List.mem_map.2 ⟨q, hq, by simpa using heq⟩)
      simp [hother, hn]
    · simp [hp]

/-- All rows are loaded. -/
theorem load_rows {rows : List (row × List (List Char))} (hexp : ∀ p ∈ rows, find_table_by_fnname m p.1.entry ≠ 0)
    (hshort : ∀ p ∈ rows, p.1.number.length < 8) {tb : List Nat} (hlen : ∀ p ∈ rows, p.1.value < tb.length)
    (syscall_number : Nat) (loaded : List (List Char × List Char)) :
    load_lines m (records rows) ⟨tb, syscall_number, loaded⟩ =
      some ⟨fill m rows tb, syscall_number, loaded ++ records rows⟩ := by
  induction rows generalizing tb loaded with
  | nil => exact congrArg some (by rw [show records [] = [] from rfl, List.append_nil]; rfl)
  | cons p rows ih =>
    have hload : load_syscall m p.1.number p.1.entry ⟨tb, syscall_number, loaded⟩ =
        some ⟨tb.set p.1.value (find_table_by_fnname m p.1.entry), syscall_number, loaded ++ [(p.1.number, p.1.entry)]⟩ := by
      have hin : ¬tb.length ≤ p.1.value := Nat.not_le.2 (hlen p (by simp))
      rw [load_syscall, if_neg (hexp p (by simp)), row.read_value (hshort p (by simp)), if_neg hin]
    rw [show records (p :: rows) = (p.1.number, p.1.entry) :: records rows from rfl, load_lines, hload, Option.bind_some,
      ih (fun q hq => hexp q (by simp [hq])) (fun q hq => hshort q (by simp [hq]))
        (fun q hq => by rw [List.length_set]; exact hlen q (by simp [hq])), List.append_assoc]
    rfl

theorem loaded_lines {recs : List (List Char × List Char)} {st st' : State} (h : load_lines m recs st = some st') :
    st'.loaded = st.loaded ++ recs := by
  induction recs generalizing st with
  | nil =>
    obtain rfl := Option.some.inj h
    rw [List.append_nil]
  | cons r recs ih =>
    obtain ⟨st₁, h₁, h₂⟩ := Option.bind_eq_some_iff.1 h
    unfold load_syscall at h₁
    dsimp only at h₁
    split at h₁
    · cases h₁
    · split at h₁
      · cases h₁
      · obtain rfl := Option.some.inj h₁
        rw [ih h₂, List.append_assoc]
        rfl

theorem read_short (h : t.Read m) : ∀ p ∈ t.rows, p.1.number.length < 8 := by
  intro p hp
  unfold Table.Read at h
  rw [if_neg (List.ne_nil_of_mem hp)] at h
  exact (h.2.1 p hp).1

theorem value_le_max {p : row × List (List Char)} (hp : p ∈ t.rows) : p.1.value ≤ t.max_number :=
  le_foldl_max (.inr (List.mem_map.2 ⟨p, hp, rfl⟩))

theorem max_number_lt (h : ∀ p ∈ t.rows, p.1.number.length < 8) : t.max_number < 10 ^ 7 := by
  refine Nat.lt_of_le_of_lt (foldl_max_le (b := 10 ^ 7 - 1) (by decide) fun x hx => ?_) (by decide)
  obtain ⟨p, hp, rfl⟩ := List.mem_map.1 hx
  have := p.1.value_lt (h p hp)
  omega

theorem numbers_eq (h : ∀ p ∈ t.rows, p.1.number.length < 8) :
    u32 (((records t.rows).map fun r => str_to_uint32 r.1).foldl max 0 + 1) = t.max_number + 1 := by
  have hmap : (records t.rows).map (fun r => str_to_uint32 r.1) = t.rows.map (·.1.value) := by
    rw [records, List.map_map]
    exact List.map_congr_left fun p hp => row.read_value (h p hp)
  have hlt := max_number_lt h
  rw [hmap]
  exact u32_of_lt (by unfold Table.max_number at hlt; omega)

/-- The parse of a table ends with its rows loaded when its text is read as the
rows, and the block is there. -/
theorem parse_iff (hexp : t.Exported m) {st : State} :
    ((∃ fuel, parse_syscall_table m (preprocess_ini_data t.text) fuel = some (some st)) ∧ st.loaded = records t.rows) ↔
      t.Read m ∧ m.kmalloc (4 * (t.max_number + 1)) = true ∧
        st = ⟨fill m t.rows (List.replicate (t.max_number + 1) 0), t.max_number + 1, records t.rows⟩ := by
  have hsize : (∀ p ∈ t.rows, p.1.number.length < 8) → u32 (4 * (t.max_number + 1)) = 4 * (t.max_number + 1) :=
    fun h => u32_of_lt (by have := max_number_lt h; omega)
  have hload : (∀ p ∈ t.rows, p.1.number.length < 8) →
      load_lines m (records t.rows) ⟨List.replicate (t.max_number + 1) 0, t.max_number + 1, []⟩ =
        some ⟨fill m t.rows (List.replicate (t.max_number + 1) 0), t.max_number + 1, records t.rows⟩ := by
    intro h
    refine load_rows hexp h (fun p hp => ?_) _ _
    rw [List.length_replicate]
    exact Nat.lt_succ_of_le (value_le_max hp)
  constructor
  · rintro ⟨⟨fuel, hparse⟩, hloaded⟩
    unfold parse_syscall_table at hparse
    split at hparse
    · cases hparse
    · cases hparse
    · rename_i number hnumber
      obtain ⟨recs₁, hread₁, hval⟩ := numbers_loop hnumber
      dsimp only at hparse
      split at hparse
      · cases hparse
      · rename_i hblock
        obtain ⟨recs, hread, hlines⟩ := load_loop hparse
        have hrecs : recs = records t.rows := (loaded_lines hlines).symm.trans hloaded
        subst hrecs
        have hok : t.Read m := reads_iff.1 hread
        have hshort := read_short hok
        rw [hread₁.det (reads_iff.2 hok), numbers_eq hshort] at hval
        subst hval
        rw [hsize hshort] at hblock hlines
        rw [Nat.mul_div_cancel_left _ (by decide : 0 < 4), hload hshort] at hlines
        refine ⟨hok, ?_, (Option.some.inj hlines).symm⟩
        by_contra hno
        exact hblock (.inr (by simpa using hno))
  · rintro ⟨hok, hblock, rfl⟩
    have hshort := read_short hok
    refine ⟨?_, rfl⟩
    obtain ⟨fuel₁, h₁⟩ := numbers_of_reads (reads_iff.2 hok) 0
    obtain ⟨fuel₂, h₂⟩ := load_of_reads (reads_iff.2 hok) (hload hshort)
    rw [numbers_eq hshort] at h₁
    refine ⟨max fuel₁ fuel₂, ?_⟩
    have hgood : ¬(t.max_number + 1 = 0 ∨ m.kmalloc (4 * (t.max_number + 1)) = false) := by simp [hblock]
    rw [parse_syscall_table, get_syscall_numbers, loop_mono (Nat.le_max_left _ _) h₁]
    dsimp only
    rw [hsize hshort, if_neg hgood, Nat.mul_div_cancel_left _ (by decide : 0 < 4)]
    exact loop_mono (Nat.le_max_right _ _) h₂

/-- A call gets to its function, or to an error, exactly when its number is
below that of the table. -/
theorem call_iff (hexp : t.Exported m) (hshort : ∀ p ∈ t.rows, p.1.number.length < 8) {sys_no : Int} :
    Answers m t ⟨fill m t.rows (List.replicate (t.max_number + 1) 0), t.max_number + 1, records t.rows⟩ sys_no ↔
      0 ≤ sys_no ∧ sys_no < t.max_number + 1 := by
  unfold Answers
  have hmax := max_number_lt hshort
  by_cases hin : 0 ≤ sys_no ∧ sys_no < t.max_number + 1
  · refine iff_of_true ?_ hin
    obtain ⟨n, rfl⟩ := Int.eq_ofNat_of_zero_le hin.1
    have hn : n < (List.replicate (t.max_number + 1) 0).length := by
      rw [List.length_replicate]
      omega
    have hbound : ¬(n : Int) % 2 ^ 32 > ((t.max_number + 1 : Nat) : Int) := by omega
    have hneg : ¬(n : Int) < 0 := by omega
    have hlook := fill_getElem (m := m) t.distinct hn
    simp only [system_call, if_neg hbound, if_neg hneg, Int.toNat_natCast, hlook, Table.entry_of, Int.natCast_inj]
    cases hfind : t.rows.find? (fun p => p.1.value = n) with
    | none =>
      simp only [Option.map_none, List.getElem?_eq_getElem hn, List.getElem_replicate]
      exact ⟨-ENOSYS, by decide, rfl⟩
    | some p =>
      have hne := hexp p (List.mem_of_find?_eq_some hfind)
      simp only [Option.map_some]
  · refine iff_of_false ?_ hin
    have hnone : t.entry_of sys_no = none := by
      rw [Table.entry_of, Option.map_eq_none_iff, List.find?_eq_none]
      intro p hp heq
      have hval : (p.1.value : Int) = sys_no := by simpa using heq
      have := value_le_max hp
      omega
    rw [hnone]
    rintro ⟨err, herr, hcall⟩
    unfold system_call at hcall
    dsimp only at hcall
    split at hcall
    · injection hcall with hcall
      omega
    · split at hcall
      · cases hcall
      · have hout : (fill m t.rows (List.replicate (t.max_number + 1) 0))[sys_no.toNat]? = none := by
          rw [List.getElem?_eq_none_iff, length_fill, List.length_replicate]
          omega
        rw [hout] at hcall
        cases hcall

/-- The table is read and the call made as the format says exactly when the text
is read as its lines and the number is in the table. -/
theorem syscall_serves (hexp : t.Exported m) {sys_no : Int} : Serves m t sys_no ↔ good_call m t sys_no := by
  constructor
  · rintro ⟨fuel, st, hparse, hloaded, hcall⟩
    obtain ⟨hok, hblock, rfl⟩ := (parse_iff hexp).1 ⟨⟨fuel, hparse⟩, hloaded⟩
    exact ⟨hok, hblock, (call_iff hexp (read_short hok)).1 hcall⟩
  · rintro ⟨hok, hblock, hrange⟩
    obtain ⟨⟨fuel, hparse⟩, hloaded⟩ := (parse_iff hexp).2 ⟨hok, hblock, rfl⟩
    exact ⟨fuel, _, hparse, hloaded, (call_iff hexp (read_short hok)).2 hrange⟩

end Load

/-! ## A small table -/

/-- `3 common read sys_read # reads` -/
def sample_row : row where
  line := ['3', ' ', 'c', 'o', 'm', 'm', 'o', 'n', ' ', 'r', 'e', 'a', 'd', '\t', 's', 'y', 's', '_', 'r', 'e', 'a', 'd',
    ' ', '#', 'r']
  indent := []
  number := ['3']
  gap_abi := [' ']
  abi := .common
  gap_name := [' ']
  name := ['r', 'e', 'a', 'd']
  gap_entry := ['\t']
  entry := ['s', 'y', 's', '_', 'r', 'e', 'a', 'd']
  rest := [' ']
  parts := by decide
  indent_blank := by decide
  number_digits := by decide
  gap_abi_blank := by decide
  gap_name_blank := by decide
  name_word := by decide
  gap_entry_blank := by decide
  entry_word := by decide
  rest_blank := by decide

/-- A comment, the row and the end marker. -/
def sample_table : Table where
  header := [['#', '7']]
  rows := [(sample_row, [])]
  trailing := [['e', 'n', 'd'], []]
  header_blank := by
    intro l hl
    obtain rfl := List.mem_singleton.1 hl
    exact fun c hc => absurd hc List.not_mem_nil
  rows_blank := by
    intro p hp l hl
    obtain rfl := List.mem_singleton.1 hp
    exact absurd hl List.not_mem_nil
  distinct := by decide
  one_line := by decide
  nul_free := by decide
  trailing_text := by
    intro index hindex c hc
    obtain rfl : ['e', 'n', 'd', '\n'] = index := Option.some.inj hindex
    obtain rfl : 'e' = c := Option.some.inj hc
    decide

def sample_machine : Machine where
  exports := [(['s', 'y', 's', '_', 'r', 'e', 'a', 'd'], 4096)]
  kmalloc _ := true
  numbers_stack _ := 'x'
  load_stack _ := 'x'
  null_ok := false

theorem sample_exported : sample_table.Exported sample_machine := by
  intro p hp
  obtain rfl := List.mem_singleton.1 hp
  decide

theorem sample_read : sample_table.Read sample_machine := by
  refine ⟨by decide, fun p hp => ?_, ['e', 'n', 'd', '\n'], rfl, fun data => ⟨-1, _, rfl, by decide⟩⟩
  obtain rfl := List.mem_singleton.1 hp
  exact ⟨by decide, by decide, by decide⟩

/-- A call of the row. -/
theorem syscall_serves_read : Serves sample_machine sample_table 3 :=
  (syscall_serves sample_exported).2 ⟨sample_read, rfl, by decide, by decide⟩

/-- The number one past the table is looked up behind its end. -/
theorem syscall_not_serves : ¬∀ (m : Machine) (t : Table) (sys_no : Int), t.Exported m → Serves m t sys_no := by
  intro h
  obtain ⟨fuel, st, hparse, hloaded, hcall⟩ := h sample_machine sample_table 4 sample_exported
  obtain ⟨hok, -, rfl⟩ := (parse_iff sample_exported).1 ⟨⟨fuel, hparse⟩, hloaded⟩
  have hrange := ((call_iff sample_exported (read_short hok)).1 hcall).2
  exact absurd hrange (by decide)

end McLinOS.Syscall
