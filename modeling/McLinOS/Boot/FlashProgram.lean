import Mathlib.Data.List.Range
import McLinOS.CLib.Loop
import McLinOS.CLib.Mem
/-!
# Writing an image to flash

`bootloader/rp2350/flash_program.c`: an image is written page by page, each page
erased and then programmed in sixteen parts.
-/
open CLib

set_option linter.style.nameCheck false

namespace McLinOS.Boot

def FLASH_SIZE : Nat := 4 * 1024 * 1024
def FLASH_SECTOR_SIZE : Nat := 4096
def PAGE_SIZE : Nat := 4096

/-! ## The flash functions of the SDK -/

structure Flash where
  flash_range_erase : Mem → Nat → Nat → Mem
  flash_range_program : Mem → Nat → List UInt8 → Mem

/-- An aligned sector is erased to 0xFF, and 256 aligned bytes that are erased are
programmed. -/
structure Flash.Works (dev : Flash) : Prop where
  erase : ∀ flash offs, offs % 4096 = 0 → offs + 4096 ≤ FLASH_SIZE →
    dev.flash_range_erase flash offs 4096 = Mem.overlay flash offs 4096 fun _ => 0xFF
  program : ∀ flash offs data, offs % 256 = 0 → offs + 256 ≤ FLASH_SIZE → data.length = 256 →
    (∀ x, offs ≤ x → x < offs + 256 → flash x = 0xFF) → dev.flash_range_program flash offs data = Mem.copy flash offs data

/-! ## A page -/

inductive flash_page_flag where
  | DIRTY
  | USING
  deriving DecidableEq, Repr

structure flash_page where
  page_number : Nat
  Flash_Page_Buffer : Mem
  FLAG : flash_page_flag

def Flash_Page_Init : flash_page := ⟨0, fun _ => 0, .USING⟩

section Program
variable (dev : Flash)

def Flash_Erase_Sector (page : flash_page) (flash : Mem) : Mem :=
  dev.flash_range_erase flash (u32 (page.page_number * 4096)) FLASH_SECTOR_SIZE

def Flash_Write_data (page : flash_page) (flash : Mem) (number : Nat) : Mem :=
  dev.flash_range_program flash (u32 (page.page_number * 4096 + number * 256))
    (Mem.bytes page.Flash_Page_Buffer (number * 256) 256)

def Flash_Write_one_Page (page : flash_page) (flash : Mem) : Mem :=
  (List.range 16).foldl (Flash_Write_data dev page) flash

/-- A page outside of the flash is not written, and 0 is returned as well. -/
def Flash_Write_Page (page : flash_page) (flash : Mem) : Int × flash_page × Mem :=
  if page.FLAG ≠ .DIRTY then (0, page, flash)
  else if u32 (u32 (page.page_number + 1) * 4096) > FLASH_SIZE then (0, page, flash)
  else (0, { page with FLAG := .USING }, Flash_Write_one_Page dev page (Flash_Erase_Sector dev page flash))

/-! ## An image -/

/-- Where the loop is. -/
structure Progress where
  offset : Nat
  page : flash_page
  flash : Mem

/-- What of the image is still to be written, but one page at most. -/
def chunk_size (size offset : Nat) : Nat := if u32sub size offset > PAGE_SIZE then PAGE_SIZE else u32sub size offset

def write_turn (buffer : Mem) (page_number : Int) (size : Nat) (s : Progress) (i : Nat) : Progress :=
  let chunk := chunk_size size s.offset
  let page : flash_page :=
    { Flash_Page_Init with
      page_number := ((page_number + i) % 2 ^ 32).toNat
      Flash_Page_Buffer := Mem.copy (Mem.fill Flash_Page_Init.Flash_Page_Buffer 0 PAGE_SIZE 0xFF) 0 (Mem.bytes buffer s.offset chunk)
      FLAG := .DIRTY }
  let written := Flash_Write_Page dev page s.flash
  ⟨u32 (s.offset + chunk), written.2.1, written.2.2⟩

/-- The result and the flash. A pointer may be NULL. -/
def write_to_flash (buffer : Option Mem) (page_number : Int) (size : Nat) (page : Option flash_page) (flash : Mem) : Int × Mem :=
  match buffer, page with
  | some buffer, some page =>
    if size = 0 then (-1, flash)
    else
      let total_pages := u32 (size + PAGE_SIZE - 1) / PAGE_SIZE
      (0, ((List.range total_pages).foldl (write_turn dev buffer page_number size) ⟨0, page, flash⟩).flash)
  | _, _ => (-1, flash)

end Program

/-! ## One page -/

section Page
variable {dev : Flash} {page : flash_page} {flash : Mem}

theorem Flash_Write_data_eq (hdev : dev.Works) (hpage : page.page_number < 1024) {number : Nat} (hnumber : number < 16)
    (herased : ∀ x, page.page_number * 4096 + number * 256 ≤ x → x < page.page_number * 4096 + number * 256 + 256 →
      flash x = 0xFF) :
    Flash_Write_data dev page flash number = Mem.overlay flash (page.page_number * 4096 + number * 256) 256
      fun i => page.Flash_Page_Buffer (number * 256 + i) := by
  have hu32 : u32 (page.page_number * 4096 + number * 256) = page.page_number * 4096 + number * 256 :=
    u32_of_lt (by omega)
  rw [Flash_Write_data, hu32, ← Mem.copy_bytes]
  refine hdev.program _ _ _ (by omega) ?_ (Mem.length_bytes _ _ _) herased
  unfold FLASH_SIZE
  omega

/-- The sixteen parts fill an erased page. -/
theorem Flash_Write_one_Page_eq (hdev : dev.Works) (hpage : page.page_number < 1024)
    (herased : ∀ x, page.page_number * 4096 ≤ x → x < page.page_number * 4096 + 4096 → flash x = 0xFF) :
    Flash_Write_one_Page dev page flash = Mem.overlay flash (page.page_number * 4096) 4096 page.Flash_Page_Buffer := by
  refine foldl_range_rec (motive := fun k flash' =>
    flash' = Mem.overlay flash (page.page_number * 4096) (k * 256) page.Flash_Page_Buffer) 16 ?_ ?_
  · rw [Nat.zero_mul, Mem.overlay_zero]
  · rintro k hk flash' rfl
    rw [Flash_Write_data_eq hdev hpage hk, Mem.overlay_append, Nat.succ_mul]
    intro x hlo hhi
    have hbelow : page.page_number * 4096 ≤ x := Nat.le_of_add_right_le hlo
    have habove : x < page.page_number * 4096 + 4096 := by omega
    rw [Mem.overlay, if_neg (by omega)]
    exact herased x hbelow habove

theorem overlay_again (m f g : Mem) (a n : Nat) : Mem.overlay (Mem.overlay m a n f) a n g = Mem.overlay m a n g := by
  funext x
  unfold Mem.overlay
  split <;> rfl

theorem Flash_Write_Page_eq (hdev : dev.Works) (hdirty : page.FLAG = .DIRTY) (hpage : page.page_number < 1024) :
    (Flash_Write_Page dev page flash).2.2 =
      Mem.overlay flash (page.page_number * 4096) 4096 page.Flash_Page_Buffer := by
  have hin : ¬u32 (u32 (page.page_number + 1) * 4096) > FLASH_SIZE := by
    rw [u32_of_lt (n := page.page_number + 1) (by omega), u32_of_lt (by omega)]
    unfold FLASH_SIZE
    omega
  have herase : Flash_Erase_Sector dev page flash = Mem.overlay flash (page.page_number * 4096) 4096 fun _ => 0xFF := by
    rw [Flash_Erase_Sector, u32_of_lt (by omega)]
    exact hdev.erase _ _ (by omega) (by unfold FLASH_SIZE; omega)
  rw [Flash_Write_Page, if_neg (not_not.2 hdirty), if_neg hin, herase, Flash_Write_one_Page_eq hdev hpage]
  · exact overlay_again _ _ _ _ _
  · intro x hlo hhi
    exact if_pos ⟨hlo, hhi⟩

end Page

/-! ## The image -/

/-- The image, and 0xFF behind it. -/
def padded (buffer : Mem) (size : Nat) : Mem := fun i => if i < size then buffer i else 0xFF

/-- How many pages the image touches. -/
def pages (size : Nat) : Nat := (size + 4095) / 4096

/-- The flash has the image, the rest of its last page is 0xFF, and nothing else
was changed. -/
structure Updated (buffer : Mem) (page_number size : Nat) (flash flash' : Mem) : Prop where
  image : ∀ i < size, flash' (4096 * page_number + i) = buffer i
  rest : ∀ x, 4096 * page_number + size ≤ x → x < 4096 * (page_number + pages size) → flash' x = 0xFF
  others : ∀ x, x < 4096 * page_number ∨ 4096 * (page_number + pages size) ≤ x → flash' x = flash x

/-- The image is inside of the flash. -/
def Fits (page_number : Int) (size : Nat) : Prop := 0 ≤ page_number ∧ 4096 * page_number + size ≤ FLASH_SIZE

/-- What an update promises: the image is there if 0 is returned, and 0 is not
returned if it does not fit. -/
structure UpdateOk (buffer : Mem) (page_number : Int) (size : Nat) (flash : Mem) (result : Int × Mem) : Prop where
  written : result.1 = 0 → Updated buffer page_number.toNat size flash result.2
  reported : ¬Fits page_number size → result.1 ≠ 0

section Image
variable {dev : Flash} {buffer flash : Mem} {base size : Nat}

theorem chunk_eq {k : Nat} (hk : k < pages size) (hsize : size < 2 ^ 32) : chunk_size size (k * 4096) = min 4096 (size - k * 4096) := by
  unfold pages at hk
  rw [chunk_size, u32sub_of_le (by omega) hsize, PAGE_SIZE]
  split <;> omega

/-- The buffer of a page has its part of the padded image. -/
theorem page_buffer {k : Nat} (chunk : Nat) (hchunk : chunk = min 4096 (size - k * 4096)) {i : Nat} (hi : i < 4096) :
    Mem.copy (Mem.fill Flash_Page_Init.Flash_Page_Buffer 0 PAGE_SIZE 0xFF) 0 (Mem.bytes buffer (k * 4096) chunk) i =
      padded buffer size (k * 4096 + i) := by
  rw [Mem.copy_bytes, Mem.overlay, padded]
  by_cases hin : k * 4096 + i < size
  · rw [if_pos (by omega), if_pos hin, Nat.sub_zero]
  · rw [if_neg (by omega), if_neg hin]
    exact Mem.fill_apply (Nat.zero_le i) (by unfold PAGE_SIZE; omega)

theorem write_turn_eq (hdev : dev.Works) (hfits : 4096 * base + size ≤ FLASH_SIZE) {k : Nat} (hk : k < pages size)
    (page : flash_page) (m : Mem) :
    let s := write_turn dev buffer base size ⟨k * 4096, page, m⟩ k
    s.offset = min size ((k + 1) * 4096) ∧
      s.flash = Mem.overlay m ((base + k) * 4096) 4096 fun i => padded buffer size (k * 4096 + i) := by
  unfold FLASH_SIZE at hfits
  have hsize : size < 2 ^ 32 := by omega
  have hchunk := chunk_eq hk hsize
  unfold pages at hk
  have hnumber : (((base : Int) + k) % 2 ^ 32).toNat = base + k := by omega
  intro s
  refine ⟨?_, ?_⟩
  · show u32 (k * 4096 + chunk_size size (k * 4096)) = _
    rw [hchunk, u32_of_lt (by omega)]
    omega
  · show (Flash_Write_Page dev _ m).2.2 = _
    rw [hnumber, Flash_Write_Page_eq hdev rfl (show base + k < 1024 by omega)]
    exact Mem.overlay_congr fun i hi => page_buffer _ hchunk hi

/-- The loop lays the padded image over the flash, page by page. -/
theorem write_loop_eq (hdev : dev.Works) (hfits : 4096 * base + size ≤ FLASH_SIZE) (page : flash_page) :
    ((List.range (pages size)).foldl (write_turn dev buffer base size) ⟨0, page, flash⟩).flash =
      Mem.overlay flash (base * 4096) (pages size * 4096) (padded buffer size) := by
  have hloop := foldl_range_rec (f := write_turn dev buffer base size) (a := ⟨0, page, flash⟩)
    (motive := fun k s => (k < pages size → s.offset = k * 4096) ∧
      s.flash = Mem.overlay flash (base * 4096) (k * 4096) (padded buffer size)) (pages size) ?_ ?_
  · exact hloop.2
  · exact ⟨fun _ => (Nat.zero_mul 4096).symm, by rw [Nat.zero_mul, Mem.overlay_zero]⟩
  · rintro k hk ⟨offset, page, m⟩ ⟨hoffset, hm⟩
    dsimp only at hoffset hm
    rw [hoffset hk]
    obtain ⟨hnext, hflash⟩ := @write_turn_eq dev buffer base size hdev hfits k hk page m
    refine ⟨?_, ?_⟩
    · intro hmore
      rw [hnext]
      unfold pages at hmore
      omega
    · rw [hflash, hm, Nat.add_mul, Mem.overlay_append, Nat.succ_mul]

theorem overlay_updated (buffer flash : Mem) (base size : Nat) :
    Updated buffer base size flash (Mem.overlay flash (base * 4096) (pages size * 4096) (padded buffer size)) where
  image := fun i hi => by
    have hin : i < pages size * 4096 := by
      unfold pages
      omega
    rw [Mem.overlay, if_pos (by omega), Nat.mul_comm, Nat.add_sub_cancel_left, padded, if_pos hi]
  rest := fun x hlo hhi => by
    rw [Mem.overlay, if_pos (by omega), padded, if_neg (by omega)]
  others := fun x hx => by
    rw [Mem.overlay, if_neg (by omega)]

/-- For an image of any size, `write_to_flash` returns 0. It keeps its promise if and
only if the image fits. -/
theorem write_to_flash_ok (dev : Flash) (hdev : dev.Works) (buffer : Mem) (page_number : Int) (size : Nat) (hsize : 0 < size)
    (page : flash_page) (flash : Mem) :
    (write_to_flash dev (some buffer) page_number size (some page) flash).1 = 0 ∧
      (UpdateOk buffer page_number size flash (write_to_flash dev (some buffer) page_number size (some page) flash) ↔
        Fits page_number size) := by
  have hwrite : write_to_flash dev (some buffer) page_number size (some page) flash =
      (0, ((List.range (u32 (size + PAGE_SIZE - 1) / PAGE_SIZE)).foldl (write_turn dev buffer page_number size)
        ⟨0, page, flash⟩).flash) := if_neg (Nat.pos_iff_ne_zero.1 hsize)
  rw [hwrite]
  refine ⟨rfl, ?_⟩
  constructor
  · intro h
    by_contra hnot
    exact h.reported hnot rfl
  · rintro hfits
    obtain ⟨base, rfl⟩ := Int.eq_ofNat_of_zero_le hfits.1
    have hroom : 4096 * base + size ≤ FLASH_SIZE := by exact_mod_cast hfits.2
    have htotal : u32 (size + PAGE_SIZE - 1) / PAGE_SIZE = pages size := by
      unfold FLASH_SIZE at hroom
      rw [PAGE_SIZE, u32_of_lt (by omega)]
      rfl
    refine ⟨fun _ => ?_, fun hnot => absurd hfits hnot⟩
    rw [htotal]
    show Updated buffer base size flash _
    rw [write_loop_eq hdev hroom page]
    exact overlay_updated buffer flash base size

end Image

/-! ## A chip -/

/-- Erased bits are 1 and are programmed to 0. -/
def chip : Flash where
  flash_range_erase := fun flash offs count => Mem.overlay flash offs count fun _ => 0xFF
  flash_range_program := fun flash offs data => fun x =>
    if offs ≤ x ∧ x < offs + data.length then flash x &&& data.getD (x - offs) 0 else flash x

theorem chip_works : chip.Works where
  erase := fun _ _ _ _ => rfl
  program := fun flash offs data _ _ hlen herased => by
    funext x
    show (if _ then _ else _) = Mem.copy flash offs data x
    unfold Mem.copy
    split
    · rename_i hin
      rw [herased x hin.1 (by omega)]
      exact UInt8.neg_one_and
    · rfl

/-- One byte at the beginning of the kernel's pages. -/
theorem write_to_flash_ok_byte : UpdateOk (fun _ => 7) 256 1 (fun _ => 0)
    (write_to_flash chip (some fun _ => 7) 256 1 (some Flash_Page_Init) fun _ => 0) :=
  (write_to_flash_ok chip chip_works (fun _ => 7) 256 1 (by decide) Flash_Page_Init fun _ => 0).2.2
    ⟨by decide, by decide⟩

/-- One byte behind the flash: 0 is returned, and nothing was written. -/
theorem write_to_flash_lost :
    (write_to_flash chip (some fun _ => 7) 1024 1 (some Flash_Page_Init) fun _ => 0).1 = 0 ∧
    (write_to_flash chip (some fun _ => 7) 1024 1 (some Flash_Page_Init) fun _ => 0).2 (4096 * 1024) = 0 ∧
    ¬UpdateOk (fun _ => 7) 1024 1 (fun _ => 0)
      (write_to_flash chip (some fun _ => 7) 1024 1 (some Flash_Page_Init) fun _ => 0) := by
  refine ⟨rfl, by decide +kernel, ?_⟩
  intro h
  exact h.reported (fun hfits => absurd hfits.2 (by decide)) rfl

end McLinOS.Boot
