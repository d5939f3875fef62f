import McLinOS.Block.W25qxx
/-!
# Requests to the w25qxx block device

What one vector does to the flash, then a request, then a run of requests.
-/
open CLib

namespace McLinOS.Block

/-! ## One vector of a write -/

section Segment
variable {flash buf target : Mem}

/-- A block write that completes `target`. -/
theorem device_write_eq {n : Nat} (h : 4096 * n + 4096 ≤ 2 ^ 24) (hin : ∀ i < 4096, buf i = target (4096 * n + i))
    (hout : ∀ x, x / 4096 ≠ n → flash x = target x) : W25Qxx_device_write_page flash buf 4096 n = target := by
  funext x
  rw [device_write_apply buf h]
  by_cases hx : x / 4096 = n
  · have e : 4096 * n + x % 4096 = x := by omega
    rw [if_pos hx, hin _ (Nat.mod_lt _ (by omega)), e]
  · rw [if_neg hx, hout x hx]

theorem copy_in {m : Mem} {a x : Nat} {data : List UInt8} (h : a ≤ x) (h' : x < a + data.length) :
    Mem.copy m a data x = data.getD (x - a) 0 := by
  rw [Mem.copy, if_pos ⟨h, h'⟩]

theorem copy_out {m : Mem} {a x : Nat} {data : List UInt8} (h : x < a ∨ a + data.length ≤ x) :
    Mem.copy m a data x = m x := by
  rw [Mem.copy, if_neg (by omega)]

theorem getD_take {data : List UInt8} {n i : Nat} (h : i < n) : (data.take n).getD i 0 = data.getD i 0 := by
  simp [List.getD_eq_getElem?_getD, h]

theorem getD_drop (data : List UInt8) (n i : Nat) : (data.drop n).getD i 0 = data.getD (n + i) 0 := by
  simp [List.getD_eq_getElem?_getD]

/-- The block buffer of the driver: backed up from sector `n`, with the data
put in from `off` on. -/
theorem backup_apply (n off : Nat) {data : List UInt8} {i : Nat} (hn : 512 * n + 4096 ≤ 2 ^ 24) (hi : i < 4096) :
    Mem.copy (W25Qxx_device_read_page flash buf 4096 n) off data i =
      if off ≤ i ∧ i < off + data.length then data.getD (i - off) 0 else flash (512 * n + i) := by
  rw [Mem.copy]
  split
  · rfl
  · exact device_read_apply buf (by decide) (by omega) hi

end Segment

section Write
variable {start : Nat} {s : Dev} {seg : List UInt8}

/-- A vector inside the first block, or one that is exactly a block. -/
theorem write_segment_one (hlen : start % 8 * 512 + seg.length ≤ 4096) (hkeep : start < 8 ∨ seg.length = 4096)
    (hdev : 4096 * (start / 8) + 4096 ≤ 2 ^ 24) :
    ∃ s', write_segment start s seg = some s' ∧ s'.flash = Mem.copy s.flash (512 * start) seg := by
  unfold write_segment
  by_cases hfull : start % 8 = 0 ∧ seg.length = 4096
  · refine ⟨_, if_pos hfull, ?_⟩
    dsimp only
    rw [hfull.2]
    refine device_write_eq hdev (fun i hi => ?_) fun x hx => ?_
    · rw [copy_in (by omega) (by omega), page]
      congr 1
      omega
    · rw [copy_out (by omega)]
  · have hfirst : start < 8 := by omega
    have hcopy : (if 4096 - start % 8 * 512 > seg.length then seg.length else 4096 - start % 8 * 512) = seg.length := by
      split <;> omega
    have hlost : ¬((start % 8 : Nat) * 512 + seg.length - 4096 : Int) > 0 := by omega
    simp only [if_neg hfull, hcopy, List.take_length]
    refine ⟨_, if_neg hlost, ?_⟩
    dsimp only
    refine device_write_eq hdev (fun i hi => ?_) fun x hx => ?_
    · rw [backup_apply _ _ (by omega) hi, Mem.copy]
      have e1 : start / 8 = 0 := by omega
      have e2 : start % 8 = start := by omega
      rw [e1, e2, Nat.mul_comm start 512, Nat.mul_zero, Nat.zero_add]
    · rw [copy_out (by omega)]

/-- A vector that ends with the second block, and of whose first block nothing
or nothing but its beginning in block 0 is kept. -/
theorem write_segment_two (hlen : start % 8 * 512 + seg.length = 8192) (hkeep : start < 8 ∨ start % 8 = 0)
    (hdev : 4096 * (start / 8 + 1) + 4096 ≤ 2 ^ 24) :
    ∃ s', write_segment start s seg = some s' ∧ s'.flash = Mem.copy s.flash (512 * start) seg := by
  have hcopy : (if 4096 - start % 8 * 512 > seg.length then seg.length else 4096 - start % 8 * 512) =
      4096 - start % 8 * 512 := if_neg (by omega)
  have hfull : ¬(start % 8 = 0 ∧ seg.length = 4096) := by omega
  have hlost : ((start % 8 : Nat) * 512 + seg.length - 4096 : Int) > 0 := by omega
  have hrest : ¬seg.length - (4096 - start % 8 * 512) > 4096 := by omega
  have hdrop : seg.length - (seg.length - (4096 - start % 8 * 512)) = 4096 - start % 8 * 512 := by omega
  unfold write_segment
  simp only [if_neg hfull, hcopy, hdrop]
  refine ⟨_, (if_pos hlost).trans (if_neg hrest), ?_⟩
  dsimp only
  refine device_write_eq hdev (fun i hi => ?_) fun x hx => ?_
  · rw [copy_in (by omega) (by rw [List.length_drop]; omega), copy_in (by omega) (by omega), getD_drop]
    congr 1
    omega
  · rw [device_write_apply _ (by omega)]
    by_cases hfirst : x / 4096 = start / 8
    · have hi : x % 4096 < 4096 := Nat.mod_lt _ (by omega)
      rw [if_pos hfirst, backup_apply _ _ (by omega) hi, List.length_take]
      by_cases hin : start % 8 * 512 ≤ x % 4096
      · rw [if_pos (by omega), getD_take (by omega), copy_in (by omega) (by omega)]
        congr 1
        omega
      · -- Only block 0 is kept in part, and it is backed up from its own place.
        have e : 512 * (start / 8) + x % 4096 = x := by omega
        rw [if_neg (by omega), copy_out (by omega), e]
    · rw [if_neg hfirst, copy_out (by omega)]

/-- An empty vector rewrites block `start / 8` with what was backed up. -/
theorem write_segment_nil (start : Nat) (s : Dev) (hdev : 4096 * (start / 8) + 4096 ≤ 2 ^ 24) :
    ∃ s', write_segment start s [] = some s' ∧ (∀ x, x / 4096 ≠ start / 8 → s'.flash x = s.flash x) ∧
      (start < 8 → s'.flash = s.flash) := by
  have hfull : ¬(start % 8 = 0 ∧ ([] : List UInt8).length = 4096) := by simp
  have hlost : ¬((start % 8 : Nat) * 512 + (([] : List UInt8).length : Nat) - 4096 : Int) > 0 := by
    rw [List.length_nil]
    omega
  unfold write_segment
  simp only [if_neg hfull, List.take_nil]
  refine ⟨_, if_neg hlost, ?_, ?_⟩
  · intro x hx
    dsimp only
    rw [device_write_apply _ hdev, if_neg hx]
  · intro hfirst
    dsimp only
    refine device_write_eq hdev (fun i hi => ?_) fun x _ => rfl
    have e : 512 * (start / 8) + i = 4096 * (start / 8) + i := by omega
    rw [backup_apply _ _ (by omega) hi, if_neg (by rw [List.length_nil]; omega), e]

end Write

/-! ## Requests -/

theorem write_segments_append (start : Nat) (xs ys : List (List UInt8)) (s : Dev) :
    write_segments start (xs ++ ys) s = (write_segments start xs s).bind (write_segments start ys) := by
  induction xs generalizing s with
  | nil => rfl
  | cons x xs ih =>
    rw [List.cons_append, write_segments, write_segments, Option.bind_assoc]
    congr 1
    funext s'
    exact ih s'

/-- The bios of a request do not matter, only the vectors in order. -/
theorem write_bios_eq (start : Nat) (bios : List bio) (s : Dev) :
    write_bios start bios s = write_segments start (bios.map (·.bi_io_vec)).flatten s := by
  induction bios generalizing s with
  | nil => rfl
  | cons b bios ih =>
    rw [write_bios, List.map_cons, List.flatten_cons, write_segments_append]
    congr 1
    funext s'
    exact ih s'

/-- Empty vectors before a block that is rewritten whole, or in block 0. -/
theorem write_segments_nil {start : Nat} (hdev : 4096 * (start / 8) + 4096 ≤ 2 ^ 24) {segs : List (List UInt8)}
    (hsegs : ∀ seg ∈ segs, seg = []) (s : Dev) :
    ∃ s', write_segments start segs s = some s' ∧ (∀ x, x / 4096 ≠ start / 8 → s'.flash x = s.flash x) ∧
      (start < 8 → s'.flash = s.flash) := by
  induction segs generalizing s with
  | nil => exact ⟨s, rfl, fun _ _ => rfl, fun _ => rfl⟩
  | cons seg segs ih =>
    obtain rfl := hsegs seg (by simp)
    obtain ⟨s₁, h₁, hout₁, hfirst₁⟩ := write_segment_nil start s hdev
    obtain ⟨s₂, h₂, hout₂, hfirst₂⟩ := ih (fun seg hseg => hsegs seg (by simp [hseg])) s₁
    exact ⟨s₂, by rw [write_segments, h₁]; exact h₂, fun x hx => (hout₂ x hx).trans (hout₁ x hx),
      fun h => (hfirst₂ h).trans (hfirst₁ h)⟩

theorem filter_eq_nil {segs : List (List UInt8)} (h : segs.filter (· ≠ []) = []) : ∀ seg ∈ segs, seg = [] := by
  simpa using h

theorem filter_eq_singleton {segs : List (List UInt8)} {seg : List UInt8} (h : segs.filter (· ≠ []) = [seg]) :
    ∃ xs ys, segs = xs ++ seg :: ys ∧ (∀ x ∈ xs, x = []) ∧ (∀ y ∈ ys, y = []) ∧ seg ≠ [] := by
  obtain ⟨xs, ys, rfl, hxs, hseg, hys⟩ := List.filter_eq_cons_iff.1 h
  exact ⟨xs, ys, rfl, by simpa using hxs, by simpa using hys, by simpa using hseg⟩

theorem flatten_nil {segs : List (List UInt8)} (h : ∀ seg ∈ segs, seg = []) : segs.flatten = [] :=
  List.flatten_eq_nil_iff.2 h

theorem flatten_one {seg : List UInt8} {xs ys : List (List UInt8)} (hxs : ∀ x ∈ xs, x = []) (hys : ∀ y ∈ ys, y = []) :
    (xs ++ seg :: ys).flatten = seg := by
  rw [List.flatten_append, List.flatten_cons, flatten_nil hxs, flatten_nil hys, List.nil_append, List.append_nil]

theorem write_segments_good {start : Nat} {segs : List (List UInt8)} (hgood : good_write start segs (segs.filter (· ≠ [])))
    (hfits : 512 * start + segs.flatten.length ≤ 2 ^ 24) (s : Dev) :
    ∃ s', write_segments start segs s = some s' ∧ s'.flash = Mem.copy s.flash (512 * start) segs.flatten := by
  unfold good_write at hgood
  split at hgood
  · rename_i hnil
    have hall := filter_eq_nil hnil
    rw [flatten_nil hall, Mem.copy_nil]
    rcases hgood with hfirst | rfl
    · have hblock : 4096 * (start / 8) + 4096 ≤ 2 ^ 24 := by omega
      obtain ⟨s', h, -, hsame⟩ := write_segments_nil hblock hall s
      exact ⟨s', h, hsame hfirst⟩
    · exact ⟨s, rfl, rfl⟩
  · rename_i seg hone
    obtain ⟨xs, ys, rfl, hxs, hys, hne⟩ := filter_eq_singleton hone
    rw [flatten_one hxs hys] at hfits ⊢
    rcases hgood with ⟨hfirst, hlen⟩ | ⟨hal, hlen, hlast⟩
    · -- In block 0 empty vectors change nothing.
      have hblock : 4096 * (start / 8) + 4096 ≤ 2 ^ 24 := by omega
      obtain ⟨s₁, h₁, -, hsame₁⟩ := write_segments_nil hblock hxs s
      obtain ⟨s₂, h₂, hflash⟩ : ∃ s₂, write_segment start s₁ seg = some s₂ ∧
          s₂.flash = Mem.copy s₁.flash (512 * start) seg := by
        rcases hlen with hlen | hlen
        · exact write_segment_one (by omega) (.inl hfirst) (by omega)
        · exact write_segment_two (by omega) (.inl hfirst) (by omega)
      obtain ⟨s₃, h₃, -, hsame₃⟩ := write_segments_nil hblock hys s₂
      refine ⟨s₃, ?_, by rw [hsame₃ hfirst, hflash, hsame₁ hfirst]⟩
      rw [write_segments_append, h₁, Option.bind_some, write_segments, h₂]
      exact h₃
    · -- What the empty vectors before it did to its block is overwritten.
      obtain rfl : ys = [] := by
        rcases List.eq_nil_or_concat ys with rfl | ⟨ys, y, rfl⟩
        · rfl
        · have hy := hys y (by simp)
          rw [List.concat_eq_append, ← List.cons_append, ← List.append_assoc, List.getLast?_concat] at hlast
          exact absurd ((Option.some.inj hlast).symm.trans hy) hne
      have hblock : 4096 * (start / 8) + 4096 ≤ 2 ^ 24 := by omega
      obtain ⟨s₁, h₁, hout₁, -⟩ := write_segments_nil hblock hxs s
      obtain ⟨s₂, h₂, hflash⟩ : ∃ s₂, write_segment start s₁ seg = some s₂ ∧
          s₂.flash = Mem.copy s₁.flash (512 * start) seg := by
        rcases hlen with hlen | hlen
        · exact write_segment_one (by omega) (.inr hlen) hblock
        · exact write_segment_two (by omega) (.inr hal) (by omega)
      refine ⟨s₂, by rw [write_segments_append, h₁, Option.bind_some, write_segments, h₂]; rfl, ?_⟩
      funext x
      rw [hflash, Mem.copy, Mem.copy]
      split
      · rfl
      · exact hout₁ x (by omega)
  · exact absurd hgood id

theorem read_segment_eq {start : Nat} {s : Dev} {seg : List UInt8} (hlen : seg.length < 2 ^ 16)
    (hfits : 512 * start + seg.length ≤ 2 ^ 24) :
    read_segment start s seg = Mem.bytes s.flash (512 * start) seg.length := by
  refine List.map_congr_left fun i hi => ?_
  rw [Nat.zero_add]
  exact device_read_apply _ hlen hfits (List.mem_range.1 hi)

theorem read_segments_nil {start : Nat} {s : Dev} {segs : List (List UInt8)} (h : ∀ seg ∈ segs, seg = []) :
    (segs.map (read_segment start s)).flatten = [] := by
  refine List.flatten_eq_nil_iff.2 fun out hout => ?_
  obtain ⟨seg, hseg, rfl⟩ := List.mem_map.1 hout
  obtain rfl := h seg hseg
  rfl

theorem read_segments_good {start : Nat} {segs : List (List UInt8)} (hgood : good_read (segs.filter (· ≠ [])))
    (hfits : 512 * start + segs.flatten.length ≤ 2 ^ 24) (s : Dev) :
    (segs.map (read_segment start s)).flatten = Mem.bytes s.flash (512 * start) segs.flatten.length := by
  unfold good_read at hgood
  split at hgood
  · rename_i hnil
    have hall := filter_eq_nil hnil
    rw [read_segments_nil hall, flatten_nil hall]
    rfl
  · rename_i seg hone
    obtain ⟨xs, ys, rfl, hxs, hys, -⟩ := filter_eq_singleton hone
    rw [flatten_one hxs hys] at hfits ⊢
    rw [List.map_append, List.map_cons, List.flatten_append, List.flatten_cons, read_segments_nil hxs,
      read_segments_nil hys, List.nil_append, List.append_nil, read_segment_eq hgood hfits]
  · exact absurd hgood id

theorem read_bios_eq (start : Nat) (s : Dev) (bios : List bio) :
    (bios.map fun b => (b.bi_io_vec.map (read_segment start s)).flatten).flatten =
      ((bios.map (·.bi_io_vec)).flatten.map (read_segment start s)).flatten := by
  induction bios with
  | nil => rfl
  | cons b bios ih => rw [List.map_cons, List.flatten_cons, ih, List.map_cons, List.flatten_cons, List.map_append,
      List.flatten_append]

/-- A request that meets the condition does to the flash what it does to an
array of bytes. -/
theorem request_good {size : Nat} {req : request} (hsize : size ≤ 2 ^ 24) (hfits : req.Fits size) (hgood : req.good)
    (s : Dev) : ∃ s', w25qxx_request s req = some (s', (req.spec s.flash).2) ∧ s'.flash = (req.spec s.flash).1 := by
  have hdev : 512 * req.start + req.segments.flatten.length ≤ 2 ^ 24 := Nat.le_trans hfits.2 hsize
  unfold w25qxx_request request.spec
  unfold request.good at hgood
  by_cases hw : req.write = true
  · rw [if_pos hw] at hgood
    obtain ⟨s', h, hflash⟩ := write_segments_good hgood hdev s
    refine ⟨s', ?_, by rw [if_pos hw]; exact hflash⟩
    rw [if_pos hw, if_pos hw, write_bios_eq]
    exact congrArg (Option.map fun s => (s, [])) h
  · rw [if_neg hw] at hgood
    refine ⟨s, ?_, by rw [if_neg hw]⟩
    rw [if_neg hw, if_neg hw, read_bios_eq]
    exact congrArg (fun out => some (s, out)) (read_segments_good hgood hdev s)

/-- In a run of requests that meet the condition the device is an array of
bytes. -/
theorem w25qxx_byte_array {size : Nat} (hsize : size ≤ 2 ^ 24) {reqs : List request} (hfits : ∀ req ∈ reqs, req.Fits size)
    (hgood : ∀ req ∈ reqs, req.good) (s : Dev) :
    ∃ s', w25qxx_requests reqs s = some (s', (spec_requests reqs s.flash).2) ∧
      s'.flash = (spec_requests reqs s.flash).1 := by
  induction reqs generalizing s with
  | nil => exact ⟨s, rfl, rfl⟩
  | cons req reqs ih =>
    obtain ⟨s₁, h₁, hflash₁⟩ := request_good hsize (hfits req (by simp)) (hgood req (by simp)) s
    obtain ⟨s₂, h₂, hflash₂⟩ := ih (fun req h => hfits req (by simp [h])) (fun req h => hgood req (by simp [h])) s₁
    rw [hflash₁] at h₂ hflash₂
    exact ⟨s₂, by simp [w25qxx_requests, h₁, h₂, spec_requests], hflash₂⟩

/-- Sector 1 written and read back. -/
theorem w25qxx_byte_array_sector :
    let reqs : List request := [⟨true, 1, [⟨[List.replicate 512 7]⟩]⟩, ⟨false, 1, [⟨[List.replicate 512 0]⟩]⟩]
    ∃ s', w25qxx_requests reqs ⟨fun _ => 0xff, fun _ => 0⟩ = some (s', (spec_requests reqs fun _ => 0xff).2) ∧
      s'.flash = (spec_requests reqs fun _ => 0xff).1 :=
  w25qxx_byte_array (show 8192 ≤ 2 ^ 24 by decide) (by decide +kernel) (by decide +kernel) ⟨fun _ => 0xff, fun _ => 0⟩

/-- A sector written at the start of block 1 loses the sector behind it. -/
theorem w25qxx_not_byte_array : ¬∀ (size : Nat) (reqs : List request) (s : Dev), size ≤ 2 ^ 24 →
    (∀ req ∈ reqs, req.Fits size) → ∃ s', w25qxx_requests reqs s = some (s', (spec_requests reqs s.flash).2) ∧
      s'.flash = (spec_requests reqs s.flash).1 := by
  intro h
  let s : Dev := ⟨fun x => if x / 512 = 9 then 1 else 0, fun _ => 0⟩
  let req : request := ⟨true, 8, [⟨[List.replicate 512 0]⟩]⟩
  obtain ⟨s', hrun, hflash⟩ := h 8192 [req] s (by decide) (by decide +kernel)
  have hcode : (w25qxx_requests [req] s).map (fun r => r.1.flash 4608) = some 0 := by decide +kernel
  have hspec : (spec_requests [req] s.flash).1 4608 = 1 := by decide +kernel
  rw [hrun, Option.map_some, hflash, hspec] at hcode
  exact absurd (Option.some.inj hcode) (by decide)

end McLinOS.Block
