import McLinOS.Boot.XmodemRuns
/-!
# Updating the kernel

`main` of `bootloader/rp2350/flash_program.c`: what was received into the RAM is written
to the flash behind the boot loader. After a failure the user can try again.
-/
open CLib

set_option linter.style.nameCheck false

namespace McLinOS.Boot

def kernel_memork_size : Int := (512 - 32) * 1024

section Update
variable (dev : Flash) (fuel : Nat) (xbuff : Mem) (page : flash_page)

/-- From `trams` on, with what the line gives in each attempt. The results are the value of the
last `xmodemReceive`, the memory from `KERNEL_RAM_START` on, which is `ram` before, and the flash. -/
def trams : List (List (Option UInt8)) → Mem → Mem → Option (Option Int × Mem × Mem)
  | [], ram, flash => some (none, ram, flash)
  | line :: attempts, ram, flash =>
    match xmodemReceive fuel line ram kernel_memork_size xbuff with
    | none => none
    | some (err, s) =>
      if err ≥ 0 then
        let page_number := err / 4096
        some (some err, s.dest,
          (write_to_flash dev (some s.dest) (1024 / 4) (u32 ((page_number + 1) * 4096).toNat) (some page) flash).2)
      else trams attempts s.dest flash

end Update

/-! ## What is in the flash -/

/-- The image was received over this line, as the blocks of its frames, as far as the RAM goes. -/
def Received (line : List (Option UInt8)) (image : List UInt8) : Prop :=
  ∃ crc blocks rest, (∀ block ∈ blocks, Sized block) ∧ Carried line (frames crc blocks) rest ∧
    image = blocks.flatten.take kernel_memork_size.toNat

/-- The pages that `main` writes for so many bytes: one more than they need where they end with a
page. -/
def written_pages (length : Nat) : Nat := length / 4096 + 1

theorem written_pages_eq (length : Nat) : written_pages length = pages length + if length % 4096 = 0 then 1 else 0 := by
  unfold written_pages pages
  split <;> omega

/-- The flash from 1 MiB on has the image, and the pages that were written have what the RAM has,
also behind the image. Nothing else was written. -/
structure Installed (image : List UInt8) (ram flash flash' : Mem) : Prop where
  written : ∀ i (hi : i < image.length), flash' (1024 * 1024 + i) = image[i]
  pages : ∀ i < written_pages image.length * 4096, flash' (1024 * 1024 + i) = ram i
  others : ∀ x, x < 1024 * 1024 ∨ 1024 * 1024 + written_pages image.length * 4096 ≤ x → flash' x = flash x

section Install
variable {dev : Flash} {flash : Mem}

/-- Whole pages that fit are written as they are. -/
theorem write_to_flash_pages (flash : Mem) (hdev : dev.Works) (buffer : Mem) {base count : Nat} (hcount : 0 < count) (hfits : base + count ≤ 1024)
    (page : flash_page) :
    (write_to_flash dev (some buffer) base (count * 4096) (some page) flash).2 =
      Mem.overlay flash (base * 4096) (count * 4096) buffer := by
  have hpages : pages (count * 4096) = count := by
    unfold pages
    omega
  have htotal : u32 (count * 4096 + PAGE_SIZE - 1) / PAGE_SIZE = pages (count * 4096) := by
    rw [PAGE_SIZE, u32_of_lt (by omega)]
    rfl
  have hsome : count * 4096 ≠ 0 := by omega
  have hroom : 4096 * base + count * 4096 ≤ FLASH_SIZE := by
    unfold FLASH_SIZE
    omega
  rw [write_to_flash, if_neg hsome, htotal]
  show ((List.range (pages (count * 4096))).foldl (write_turn dev buffer base (count * 4096)) ⟨0, page, flash⟩).flash = _
  rw [write_loop_eq hdev hroom, hpages]
  exact Mem.overlay_congr fun i hi => if_pos hi

/-- What was received is installed. -/
theorem installed (hdev : dev.Works) {image : List UInt8} (himage : image.length ≤ 491520) (ram : Mem) (page : flash_page) :
    Installed image (Mem.copy ram 0 image) flash (write_to_flash dev (some (Mem.copy ram 0 image)) (1024 / 4)
      (u32 ((((image.length : Nat) : Int) / 4096 + 1) * 4096).toNat) (some page) flash).2 := by
  have hsize : u32 ((((image.length : Nat) : Int) / 4096 + 1) * 4096).toNat = (image.length / 4096 + 1) * 4096 := by
    rw [u32_of_lt (by omega)]
    omega
  have hroom : 256 + (image.length / 4096 + 1) ≤ 1024 := by omega
  have hwrite := write_to_flash_pages flash hdev (Mem.copy ram 0 image) (Nat.succ_pos _) hroom page
  rw [hsize]
  show Installed image _ flash (write_to_flash dev (some (Mem.copy ram 0 image)) (256 : Nat) _ (some page) flash).2
  rw [hwrite]
  constructor
  · intro i hi
    rw [Mem.overlay, if_pos (by omega), Mem.copy, if_pos (by omega)]
    have hback : 1024 * 1024 + i - 256 * 4096 - 0 = i := by omega
    rw [hback, List.getD_eq_getElem _ _ hi]
  · intro i hi
    unfold written_pages at hi
    rw [Mem.overlay, if_pos (by omega)]
    exact congrArg _ (by omega)
  · intro x hx
    unfold written_pages at hx
    rw [Mem.overlay, if_neg (by omega)]

end Install

/-- Whatever comes over the line in whatever number of attempts: an attempt that does not succeed
changes nothing in the flash, and the first one that succeeds leaves there what it received, in
the pages that `main` writes for it. -/
theorem trams_installs (dev : Flash) (hdev : dev.Works) (xbuff : Mem) (page : flash_page) (attempts : List (List (Option UInt8)))
    (fuel : Nat) (hfuel : ∀ line ∈ attempts, line.length + 2 ≤ fuel) (ram flash : Mem) :
    ∃ result ram' flash', trams dev fuel xbuff page attempts ram flash = some (result, ram', flash') ∧
      (result = none → flash' = flash) ∧
      ∀ n, result = some n →
        ∃ line ∈ attempts, ∃ image, Received line image ∧ n = image.length ∧ Installed image ram' flash flash' := by
  induction attempts generalizing ram with
  | nil => exact ⟨none, ram, flash, rfl, fun _ => rfl, fun _ h => by cases h⟩
  | cons line attempts ih =>
    obtain ⟨hline, hrest⟩ := List.forall_mem_cons.1 hfuel
    obtain ⟨more, rfl⟩ := Nat.exists_eq_add_of_le hline
    obtain ⟨⟨err, s⟩, hreceive, hresult, blocks, hholds⟩ := xmodemReceive_any line ram kernel_memork_size xbuff more
    rw [trams, hreceive]
    dsimp only
    by_cases herr : err ≥ 0
    · rw [if_pos herr]
      obtain rfl : err = s.len := hresult.resolve_right (Int.not_lt.2 herr)
      refine ⟨_, _, _, rfl, fun hnone => absurd hnone (Option.some_ne_none _), ?_⟩
      rintro _ ⟨rfl⟩
      refine ⟨line, List.mem_cons_self, _, ⟨s.crc, blocks, s.port.line, hholds.sized, hholds.carried, rfl⟩, ?_, ?_⟩
      · exact congrArg Int.ofNat hholds.len
      · have hfits : (blocks.flatten.take kernel_memork_size.toNat).length ≤ 491520 := List.length_take_le _ _
        rw [hholds.stored, hholds.len]
        exact installed hdev hfits ram page
    · rw [if_neg herr]
      obtain ⟨result, ram', flash', hrun, hnone, hsome⟩ := ih hrest s.dest
      refine ⟨result, ram', flash', hrun, hnone, ?_⟩
      intro n hn
      obtain ⟨line', hmem, himage⟩ := hsome n hn
      exact ⟨line', List.mem_cons_of_mem _ hmem, himage⟩

/-- A sender that cancels, and then one that sends a block. -/
def cancelled : List (Option UInt8) := [none, none, none, some CAN, some CAN]

def one_block_sent : List (Option UInt8) := [none, none, none] ++ (transmission (fun _ => [none]) 0 [List.replicate 128 7] ++ [])

theorem one_block_sent_received (ram xbuff : Mem) {fuel : Nat} (hfuel : 2 ≤ fuel) :
    ∃ s, xmodemReceive fuel one_block_sent ram kernel_memork_size xbuff = some (128, s) ∧
      s.dest = Mem.copy ram 0 (List.replicate 128 7) := by
  have hsized : ∀ block ∈ [List.replicate 128 (7 : UInt8)], Sized block := List.forall_mem_singleton.2 (.inl List.length_replicate)
  have hport := congrArg Port.line (receiver_line three_pauses
    (transmission (fun _ => [none]) 0 [List.replicate 128 7] ++ []) ram xbuff)
  obtain ⟨s, hloop, hholds⟩ := transmission_received (fun _ => gap_pause) (holds_start one_block_sent kernel_memork_size ram xbuff)
    rfl hsized hport
  have hall : ([] ++ [List.replicate 128 (7 : UInt8)]).flatten.take kernel_memork_size.toNat = List.replicate 128 7 := by
    simp [kernel_memork_size]
  have hlen := hholds.len
  have hstored := hholds.stored
  rw [hall] at hlen hstored
  rw [List.length_replicate] at hlen
  rw [hlen] at hloop
  exact ⟨s, loop_mono hfuel hloop, hstored⟩

theorem trams_installs_block : ∃ ram' flash',
    trams chip 200 (fun _ => 0) Flash_Page_Init [cancelled, one_block_sent] (fun _ => 0) (fun _ => 9) = some (some 128, ram', flash') ∧
      (∀ i < 128, flash' (1024 * 1024 + i) = 7) ∧ ∀ x, x < 1024 * 1024 ∨ 1024 * 1024 + 4096 ≤ x → flash' x = 9 := by
  have hfuel : ∀ line ∈ [cancelled, one_block_sent], line.length + 2 ≤ 200 := by decide +kernel
  obtain ⟨result, ram', flash', hrun, -, hsome⟩ := trams_installs chip chip_works (fun _ => 0) Flash_Page_Init _ 200 hfuel (fun _ => 0) fun _ => 9
  obtain ⟨s₁, hfirst, hram⟩ : ∃ s₁, xmodemReceive 200 cancelled (fun _ => 0) kernel_memork_size (fun _ => 0) = some (-1, s₁) ∧
      s₁.dest = fun _ => 0 := ⟨_, rfl, rfl⟩
  obtain ⟨s₂, hsecond, hdest⟩ := one_block_sent_received (fun _ => 0) (fun _ => 0) (show 2 ≤ 200 by decide)
  rw [trams, hfirst] at hrun
  dsimp only at hrun
  rw [if_neg (by decide), trams, hram, hsecond] at hrun
  dsimp only at hrun
  rw [if_pos (by decide)] at hrun
  obtain ⟨hresult, hrest⟩ := Prod.mk.inj (Option.some.inj hrun)
  obtain ⟨hram', -⟩ := Prod.mk.inj hrest
  obtain ⟨line, -, image, -, hlen, hinstalled⟩ := hsome 128 hresult.symm
  have hlen' : image.length = 128 := Int.ofNat.inj hlen.symm
  refine ⟨ram', flash', ?_, fun i hi => ?_, fun x hx => ?_⟩
  · rw [trams, hfirst]
    dsimp only
    rw [if_neg (by decide), trams, hram, hsecond]
    dsimp only
    rw [if_pos (by decide), hrun, hresult]
  · have hin : i < (List.replicate 128 (7 : UInt8)).length := by rwa [List.length_replicate]
    rw [hinstalled.pages i (by rw [hlen', written_pages]; omega), ← hram', hdest, Mem.copy, if_pos (by omega), Nat.sub_zero,
      List.getD_eq_getElem _ _ hin]
    exact List.getElem_replicate _
  · exact hinstalled.others x (by rw [hlen', written_pages]; omega)

end McLinOS.Boot
