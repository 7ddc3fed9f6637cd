import KernelExperiment.Lib.Records
import KernelExperiment.Lib.Runs
import KernelExperiment.Pipe.Device
import KernelExperiment.Proc.Conversions

/-! The file `/proc/scullpipe`. The whole report is printed again for a read at any offset, and
`scullp_proc_offset` is to leave out what is in front of the offset. -/

namespace KernelExperiment.Pipe
open Kernel Proc Records Runs

/-- The memory with bytes stored from `i` on. -/
def stored (mem : ℕ → Byte) (i : ℕ) (bs : List Byte) : ℕ → Byte :=
  fun k => if k < i then mem k else bs[k - i]?.getD (mem k)

/-- The memory from `buf` on, with the variables of the read; `start` is `*start - buf`. -/
structure Window where
  buf : ℕ → Byte
  start : ℕ
  offset : ℕ
  len : ℕ

namespace Window

/-- `len += sprintf(buf+len, ...)` -/
def sprintf (w : Window) (text : List Byte) : Window :=
  { w with buf := stored w.buf w.len (text ++ [0]), len := w.len + text.length }

def scullpProcOffset (w : Window) : Window :=
  if w.offset = 0 then w
  else if w.offset ≥ w.len then { w with offset := w.offset - w.len, len := 0 }
  -- `*len` still counts from `buf`
  else { w with start := w.offset, offset := 0 }

def text (w : Window) : List Byte := block w.len w.buf

/-- What a reader gets who takes the returned length at `*start`. -/
def delivered (w : Window) : List Byte := block w.len fun k => w.buf (w.start + k)

end Window

/-- Don't print any more after this size. -/
def limit : ℕ := 4096 - 200

/-- The first line and the lines for each device. -/
structure Printer (D : Type*) where
  header : List Byte
  lines : ℕ → D → List (List Byte)
  header_ne : header ≠ []
  length_header_le : header.length ≤ limit

/-- `i` is how many devices have been printed. -/
structure Report where
  i : ℕ
  window : Window
  eof : Bool

/-- What `scull_read_p_mem` prints, for devices at these addresses and buffers that are, or were
last, at those. -/
def scullPrinter (conv : Conversions) (scullPBuffer : Int32) (addr base : ℕ → UInt32) :
    Printer ScullPipe where
  header := ascii "Default buffersize is " ++ conv.int scullPBuffer ++ ascii "\n"
  lines i p :=
    [ascii "\nDevice " ++ conv.int (Int32.ofNat i) ++ ascii ": " ++ conv.pointer (addr i) ++
        ascii "\n",
      ascii "   Buffer: " ++ conv.pointer (p.buffer.elim 0 fun _ => base i) ++ ascii " to " ++
        conv.pointer (base i + UInt32.ofInt p.bufferEnd) ++ ascii " (" ++ conv.int p.buffersize ++
        ascii " bytes)\n",
      ascii "   rp " ++ conv.pointer (base i + UInt32.ofNat p.rp) ++ ascii "   wp " ++
        conv.pointer (base i + UInt32.ofNat p.wp) ++ ascii "\n",
      ascii "   readers " ++ conv.int (Int32.ofInt p.nreaders) ++ ascii "   writers " ++
        conv.int (Int32.ofInt p.nwriters) ++ ascii "\n"]
  header_ne := by
    have hfirst : ascii "Default buffersize is " ≠ [] := by decide
    simp [hfirst]
  length_header_le := by
    have hint := conv.length_int_le scullPBuffer
    have h22 : (ascii "Default buffersize is ").length = 22 := by decide
    have h1 : (ascii "\n").length = 1 := by decide
    simp only [List.length_append, h22, h1, limit]
    omega

namespace Printer

variable {D : Type*} (pr : Printer D)

def deviceLoop (interrupted : ℕ → Bool) : ℕ → List D → Window → Except Errno (ℕ × Window)
  | i, [], w => .ok (i, w)
  | i, p :: devs, w =>
    if w.len ≤ limit then
      if interrupted i then .error .erestartsys
      else deviceLoop interrupted (i + 1) devs
        ((pr.lines i p).foldl Window.sprintf w).scullpProcOffset
    else .ok (i, w)

/-- `scull_read_p_mem` with its page as it was before. -/
def scullReadPMem (interrupted : ℕ → Bool) (devs : List D) (buf : ℕ → Byte) (offset : ℕ) :
    Except Errno Report :=
  let w : Window := { buf, start := 0, offset, len := 0 }
  (pr.deviceLoop interrupted 0 devs (w.sprintf pr.header)).map fun (i, w) =>
    { i, window := w, eof := decide (w.len ≤ limit) }

def record (i : ℕ) (p : D) : List Byte := (pr.lines i p).flatten

def records (i : ℕ) (devs : List D) : List (List Byte) :=
  (devs.zipIdx i).map fun (p, j) => pr.record j p

/-- The report as far as the first `k` devices. -/
def front (devs : List D) (k : ℕ) : List Byte := pr.header ++ ((pr.records 0 devs).take k).flatten

def report (devs : List D) : List Byte := pr.header ++ (pr.records 0 devs).flatten

/-- The offset is the beginning, or behind everything, or where the text of a device ends. -/
def AtRecord (devs : List D) (offset : ℕ) : Prop :=
  offset = 0 ∨ (devs ≠ [] ∧ (pr.report devs).length ≤ offset) ∨
    ∃ k, 0 < k ∧ k ≤ devs.length ∧ offset = (pr.front devs k).length

end Printer

theorem block_stored (mem : ℕ → Byte) (i : ℕ) (bs cs : List Byte) :
    block (i + bs.length) (stored mem i (bs ++ cs)) = block i mem ++ bs := by
  rw [block_add]
  congr 1
  · refine List.map_congr_left fun k hk => if_pos (List.mem_range.mp hk)
  · refine List.ext_getElem (length_block ..) fun k hk hk' => ?_
    simp [block, stored, List.getElem?_append_left hk', hk']

namespace Window

variable {w : Window} {text : List Byte} {offset : ℕ}

theorem text_sprintf (w : Window) (bs : List Byte) : (w.sprintf bs).text = w.text ++ bs :=
  block_stored w.buf w.len bs [0]

theorem length_text (w : Window) : w.text.length = w.len := length_block ..

theorem length_delivered (w : Window) : w.delivered.length = w.len := length_block ..

theorem delivered_of_start_eq_zero (h : w.start = 0) : w.delivered = w.text := by
  simp only [delivered, h, Nat.zero_add]
  rfl

theorem foldl_sprintf (w : Window) (lines : List (List Byte)) :
    (lines.foldl sprintf w).text = w.text ++ lines.flatten ∧
      (lines.foldl sprintf w).start = w.start ∧ (lines.foldl sprintf w).offset = w.offset := by
  induction lines generalizing w with
  | nil => exact ⟨(List.append_nil _).symm, rfl, rfl⟩
  | cons line lines ih =>
    obtain ⟨htext, hstart, hoffset⟩ := ih (w.sprintf line)
    refine ⟨?_, hstart, hoffset⟩
    rw [List.foldl_cons, htext, text_sprintf, List.append_assoc, List.flatten_cons]

theorem scullpProcOffset_of_le (hpos : 0 < w.offset) (h : w.text.length ≤ w.offset) :
    w.scullpProcOffset = { w with offset := w.offset - w.text.length, len := 0 } := by
  rw [length_text] at h ⊢
  rw [scullpProcOffset, if_neg (Nat.ne_of_gt hpos), if_pos h]

theorem scullpProcOffset_of_lt (hstart : w.start = 0)
    (h : w.offset = 0 ∨ w.offset < w.text.length) :
    w.scullpProcOffset = { w with start := w.offset, offset := 0 } := by
  rw [length_text] at h
  unfold scullpProcOffset
  split_ifs with hzero hge
  · cases w
    simp_all
  · omega
  · rfl

/-- What is left in the window of a text: the bytes that were skipped as whole chunks are gone, the
`start` bytes before the offset are not. -/
structure Cut (w : Window) (text : List Byte) (offset : ℕ) : Prop where
  text_eq : w.text = text.drop (offset - w.start)
  start_le : w.start ≤ offset
  start_le_len : w.start ≤ w.len

namespace Cut

/-- As many bytes as are left out in front come from behind the text. -/
theorem delivered_eq (h : w.Cut text offset) :
    w.delivered = text.drop offset ++ block w.start fun k => w.buf (w.len + k) := by
  calc w.delivered
    _ = (block (w.start + w.len) w.buf).drop w.start := (drop_block ..).symm
    _ = (w.text ++ block w.start fun k => w.buf (w.len + k)).drop w.start := by
      rw [Nat.add_comm, block_add]
      rfl
    _ = w.text.drop w.start ++ block w.start fun k => w.buf (w.len + k) :=
      List.drop_append_of_le_length (h.start_le_len.trans w.length_text.ge)
    _ = _ := by rw [h.text_eq, List.drop_drop, Nat.sub_add_cancel h.start_le]

theorem delivered_eq_drop_iff (h : w.Cut text offset) :
    w.delivered = text.drop offset ↔ w.start = 0 := by
  rw [h.delivered_eq, List.append_right_eq_self, ← List.length_eq_zero_iff, length_block]

end Cut
end Window

namespace Printer
open Window

variable {D : Type*} {pr : Printer D} {interrupted : ℕ → Bool} {i j : ℕ} {p : D} {devs : List D}
  {w w' : Window}

theorem flatten_take_records (pr : Printer D) (i : ℕ) (p : D) (devs : List D) (k : ℕ) :
    ((pr.records i (p :: devs)).take (k + 1)).flatten =
      pr.record i p ++ ((pr.records (i + 1) devs).take k).flatten := rfl

def printed (pr : Printer D) (i : ℕ) (p : D) (w : Window) : Window :=
  (pr.lines i p).foldl sprintf w

theorem text_printed (pr : Printer D) (i : ℕ) (p : D) (w : Window) :
    (pr.printed i p w).text = w.text ++ pr.record i p :=
  (foldl_sprintf w (pr.lines i p)).1

theorem start_printed (pr : Printer D) (i : ℕ) (p : D) (w : Window) :
    (pr.printed i p w).start = w.start :=
  (foldl_sprintf w (pr.lines i p)).2.1

theorem offset_printed (pr : Printer D) (i : ℕ) (p : D) (w : Window) :
    (pr.printed i p w).offset = w.offset :=
  (foldl_sprintf w (pr.lines i p)).2.2

/-- A loop that is through with the first device went on behind it. -/
theorem deviceLoop_cons (hlimit : w.len ≤ limit)
    (h : pr.deviceLoop interrupted i (p :: devs) w = .ok (j, w')) :
    pr.deviceLoop interrupted (i + 1) devs (pr.printed i p w).scullpProcOffset = .ok (j, w') := by
  rw [deviceLoop, if_pos hlimit] at h
  split_ifs at h
  exact h

/-- Behind the offset every record is put behind the others. -/
theorem deviceLoop_behind (hoffset : w.offset = 0)
    (h : pr.deviceLoop interrupted i devs w = .ok (j, w')) :
    ∃ k ≤ devs.length, j = i + k ∧ w'.start = w.start ∧
      w'.text = w.text ++ ((pr.records i devs).take k).flatten := by
  induction devs generalizing i w with
  | nil =>
    obtain ⟨rfl, rfl⟩ := Prod.mk.inj (Except.ok.inj h)
    exact ⟨0, Nat.le_refl _, rfl, rfl, (List.append_nil _).symm⟩
  | cons p devs ih =>
    by_cases hlimit : w.len ≤ limit
    · have hprinted := (offset_printed pr i p w).trans hoffset
      have hrest := deviceLoop_cons hlimit h
      rw [scullpProcOffset, if_pos hprinted] at hrest
      obtain ⟨k, hk, hj, hstart, htext⟩ := ih hprinted hrest
      refine ⟨k + 1, Nat.succ_le_succ hk, by omega, hstart.trans (start_printed pr i p w), ?_⟩
      rw [htext, text_printed, flatten_take_records, List.append_assoc]
    · rw [deviceLoop, if_neg hlimit] at h
      obtain ⟨rfl, rfl⟩ := Prod.mk.inj (Except.ok.inj h)
      exact ⟨0, Nat.zero_le _, rfl, rfl, (List.append_nil _).symm⟩

/-- What `scullp_proc_offset` is applied to, one after the other. -/
def chunks (pr : Printer D) (pending : List Byte) (i : ℕ) : List D → List (List Byte)
  | [] => []
  | p :: devs => (pending ++ pr.record i p) :: pr.records (i + 1) devs

theorem inside_chunks_of_lt {pending : List Byte} {offset : ℕ}
    (h : offset = 0 ∨ offset < (pending ++ pr.record i p).length) :
    inside offset (pr.chunks pending i (p :: devs)) = offset := by
  rcases h with rfl | hlt
  · exact inside_eq_zero_iff.mpr (Or.inr ⟨0, Nat.zero_le _, rfl⟩)
  · exact inside_of_lt hlt

/-- The offset falls into what has just been printed. -/
theorem deviceLoop_here (hstart : w.start = 0) (hlimit : w.len ≤ limit)
    (hhere : w.offset = 0 ∨ w.offset < (w.text ++ pr.record i p).length)
    (h : pr.deviceLoop interrupted i (p :: devs) w = .ok (j, w')) :
    ∃ k ≤ devs.length, j = i + (k + 1) ∧
      w'.Cut (w.text ++ ((pr.records i (p :: devs)).take (k + 1)).flatten) w.offset ∧
      w'.start = w.offset := by
  have hrest := deviceLoop_cons hlimit h
  have hprinted := (start_printed pr i p w).trans hstart
  have hoffset := offset_printed pr i p w
  rw [← text_printed, ← hoffset] at hhere
  rw [scullpProcOffset_of_lt hprinted hhere, hoffset] at hrest
  obtain ⟨k, hk, hj, hstart', htext⟩ := deviceLoop_behind rfl hrest
  have hall : w'.text = w.text ++ ((pr.records i (p :: devs)).take (k + 1)).flatten := by
    rw [htext, flatten_take_records, ← List.append_assoc, ← text_printed]
    rfl
  refine ⟨k, hk, by omega, ⟨?_, hstart'.le, ?_⟩, hstart'⟩
  · rw [hall, hstart', Nat.sub_self, List.drop_zero]
  · have hle : (pr.printed i p w).offset ≤ (pr.printed i p w).text.length := by omega
    rw [← w'.length_text, htext, List.length_append, hstart', ← hoffset]
    exact hle.trans (Nat.le_add_right ..)

theorem deviceLoop_skip (hstart : w.start = 0) (hlimit : w.len ≤ limit)
    (hskip : ¬(w.offset = 0 ∨ w.offset < (w.text ++ pr.record i p).length))
    (h : pr.deviceLoop interrupted i (p :: devs) w = .ok (j, w')) :
    ∃ v : Window, v.start = 0 ∧ v.len = 0 ∧
      v.offset = w.offset - (w.text ++ pr.record i p).length ∧
      pr.deviceLoop interrupted (i + 1) devs v = .ok (j, w') := by
  have hrest := deviceLoop_cons hlimit h
  rw [← text_printed, ← offset_printed pr i p w] at hskip ⊢
  rw [scullpProcOffset_of_le (by omega) (by omega)] at hrest
  exact ⟨{ pr.printed i p w with offset := _, len := 0 }, (start_printed pr i p w).trans hstart,
    rfl, rfl, hrest⟩

/-- The start ends up as far inside a chunk as the offset falls. -/
theorem deviceLoop_chunks (hstart : w.start = 0) (hlimit : w.len ≤ limit)
    (h : pr.deviceLoop interrupted i (p :: devs) w = .ok (j, w')) :
    ∃ k ≤ devs.length, j = i + (k + 1) ∧
      w'.Cut (w.text ++ ((pr.records i (p :: devs)).take (k + 1)).flatten) w.offset ∧
      w'.start = inside w.offset (pr.chunks w.text i (p :: devs)) := by
  induction devs generalizing i p w with
  | nil =>
    by_cases hhere : w.offset = 0 ∨ w.offset < (w.text ++ pr.record i p).length
    · rw [inside_chunks_of_lt hhere]
      exact deviceLoop_here hstart hlimit hhere h
    · obtain ⟨v, hvstart, hvlen, -, hrest⟩ := deviceLoop_skip hstart hlimit hhere h
      obtain ⟨rfl, rfl⟩ := Prod.mk.inj (Except.ok.inj hrest)
      have hnone : v.text = [] := List.eq_nil_of_length_eq_zero (v.length_text.trans hvlen)
      have hbehind : (w.text ++ pr.record i p).length ≤ w.offset := by omega
      refine ⟨0, Nat.zero_le _, rfl, ⟨?_, ?_, ?_⟩, ?_⟩
      · rw [hnone, hvstart, Nat.sub_zero, flatten_take_records, List.take_zero, List.flatten_nil,
          List.append_nil, List.drop_of_length_le hbehind]
      · omega
      · omega
      · rw [hvstart, chunks, inside_of_le hbehind]
        rfl
  | cons p' devs ih =>
    by_cases hhere : w.offset = 0 ∨ w.offset < (w.text ++ pr.record i p).length
    · rw [inside_chunks_of_lt hhere]
      exact deviceLoop_here hstart hlimit hhere h
    · obtain ⟨v, hvstart, hvlen, hvoffset, hrest⟩ := deviceLoop_skip hstart hlimit hhere h
      have hnone : v.text = [] := List.eq_nil_of_length_eq_zero (v.length_text.trans hvlen)
      have hbehind : (w.text ++ pr.record i p).length ≤ w.offset := by omega
      obtain ⟨k, hk, hj, hcut, hinside⟩ := ih hvstart (hvlen ▸ Nat.zero_le limit) hrest
      rw [hnone, hvoffset] at hcut hinside
      refine ⟨k + 1, Nat.succ_le_succ hk, by omega, ⟨?_, ?_, hcut.start_le_len⟩, ?_⟩
      · have hle := hcut.start_le
        have hfirst : w.offset - w'.start = (w.text ++ pr.record i p).length +
            (w.offset - (w.text ++ pr.record i p).length - w'.start) := by omega
        rw [hcut.text_eq, List.nil_append, flatten_take_records pr i, ← List.append_assoc, hfirst,
          ← List.drop_drop, List.drop_left]
      · exact hcut.start_le.trans (Nat.sub_le _ _)
      · rw [hinside]
        exact (inside_of_le hbehind).symm

theorem scullReadPMem_ok {buf : ℕ → Byte} {offset : ℕ} {out : Report}
    (h : pr.scullReadPMem interrupted devs buf offset = .ok out) :
    pr.deviceLoop interrupted 0 devs (sprintf ⟨buf, 0, offset, 0⟩ pr.header) =
      .ok (out.i, out.window) ∧ out.eof = decide (out.window.len ≤ limit) := by
  rw [scullReadPMem] at h
  cases hloop : pr.deviceLoop interrupted 0 devs (sprintf ⟨buf, 0, offset, 0⟩ pr.header) with
  | error e => cases hloop ▸ h
  | ok r => cases hloop ▸ h; exact ⟨rfl, rfl⟩

theorem scullReadPMem_cut {buf : ℕ → Byte} {offset : ℕ} {out : Report}
    (h : pr.scullReadPMem interrupted (p :: devs) buf offset = .ok out) :
    (0 < out.i ∧ out.i ≤ (p :: devs).length) ∧
      out.window.Cut (pr.front (p :: devs) out.i) offset ∧
      out.window.start = inside offset (pr.chunks pr.header 0 (p :: devs)) := by
  have htext : (sprintf ⟨buf, 0, offset, 0⟩ pr.header).text = pr.header := text_sprintf ..
  have hlimit : (sprintf ⟨buf, 0, offset, 0⟩ pr.header).len ≤ limit := by
    rw [← length_text, htext]
    exact pr.length_header_le
  obtain ⟨k, hk, hi, hcut⟩ := deviceLoop_chunks rfl hlimit (scullReadPMem_ok h).1
  rw [htext] at hcut
  rw [Nat.zero_add] at hi
  rw [hi]
  exact ⟨⟨Nat.succ_pos k, Nat.succ_le_succ hk⟩, hcut⟩

theorem length_records (pr : Printer D) (i : ℕ) (devs : List D) :
    (pr.records i devs).length = devs.length := by
  rw [records, List.length_map, List.length_zipIdx]

theorem inside_chunks_eq_zero_iff (offset : ℕ) :
    inside offset (pr.chunks pr.header 0 (p :: devs)) = 0 ↔ pr.AtRecord (p :: devs) offset := by
  have htake : ∀ k, ((pr.chunks pr.header 0 (p :: devs)).take (k + 1)).flatten =
      pr.front (p :: devs) (k + 1) := fun k => List.append_assoc ..
  have hall : (pr.chunks pr.header 0 (p :: devs)).flatten = pr.report (p :: devs) :=
    List.append_assoc ..
  have hlength : (pr.chunks pr.header 0 (p :: devs)).length = (p :: devs).length :=
    congrArg Nat.succ (pr.length_records 1 devs)
  rw [inside_eq_zero_iff, hall, hlength, AtRecord, and_iff_right (List.cons_ne_nil p devs)]
  constructor
  · rintro (hle | ⟨k, hk, hoffset⟩)
    · exact Or.inr (Or.inl hle)
    · cases k with
      | zero => exact Or.inl hoffset
      | succ k => exact Or.inr (Or.inr ⟨k + 1, Nat.succ_pos k, hk, htake k ▸ hoffset⟩)
  · rintro (hzero | hle | ⟨k, hpos, hk, hoffset⟩)
    · exact Or.inr ⟨0, Nat.zero_le _, hzero⟩
    · exact Or.inl hle
    · obtain ⟨k, rfl⟩ := Nat.exists_eq_succ_of_ne_zero (Nat.ne_of_gt hpos)
      exact Or.inr ⟨k + 1, hk, (htake k).symm ▸ hoffset⟩

theorem scullReadPMem_nil {buf : ℕ → Byte} {offset : ℕ} {out : Report}
    (h : pr.scullReadPMem interrupted [] buf offset = .ok out) :
    out.window.delivered = pr.header := by
  obtain ⟨-, hw⟩ := Prod.mk.inj (Except.ok.inj (scullReadPMem_ok h).1)
  rw [← hw, delivered_of_start_eq_zero rfl, text_sprintf]
  rfl

/-- A read is exact just where the offset does not fall into a record. -/
theorem scullReadPMem_exact_iff {buf : ℕ → Byte} {offset : ℕ} {out : Report}
    (h : pr.scullReadPMem interrupted devs buf offset = .ok out) :
    out.window.delivered = (pr.front devs out.i).drop offset ↔ pr.AtRecord devs offset := by
  cases devs with
  | nil =>
    -- nothing has looked at the offset
    have hfront : pr.front ([] : List D) out.i = pr.header := by
      rw [front, records, List.zipIdx_nil, List.map_nil, List.take_nil, List.flatten_nil,
        List.append_nil]
    have hpos := List.length_pos_iff.mpr pr.header_ne
    rw [scullReadPMem_nil h, hfront]
    constructor
    · intro heq
      have hlen := congrArg List.length heq
      rw [List.length_drop] at hlen
      exact Or.inl (by omega)
    · rintro (rfl | ⟨hne, -⟩ | ⟨k, hpos, hk, -⟩)
      · rfl
      · exact absurd rfl hne
      · exact absurd hk (Nat.not_le.mpr hpos)
  | cons p devs =>
    obtain ⟨-, hcut, hstart⟩ := scullReadPMem_cut h
    rw [hcut.delivered_eq_drop_iff, hstart, inside_chunks_eq_zero_iff]

theorem exists_deviceLoop (pr : Printer D) (h : ∀ i, interrupted i = false) (i : ℕ)
    (devs : List D) (w : Window) : ∃ r, pr.deviceLoop interrupted i devs w = .ok r := by
  induction devs generalizing i w with
  | nil => exact ⟨_, rfl⟩
  | cons p devs ih =>
    rw [deviceLoop, h i, if_neg Bool.false_ne_true]
    split_ifs
    · exact ih _ _
    · exact ⟨_, rfl⟩

theorem exists_report (pr : Printer D) (h : ∀ i, interrupted i = false) (devs : List D)
    (buf : ℕ → Byte) (offset : ℕ) :
    ∃ out, pr.scullReadPMem interrupted devs buf offset = .ok out := by
  obtain ⟨r, hr⟩ := pr.exists_deviceLoop h 0 devs (sprintf ⟨buf, 0, offset, 0⟩ pr.header)
  exact ⟨_, congrArg (Except.map _) hr⟩

end Printer

def closed : ScullPipe where
  buffer := none
  bufferEnd := 0
  buffersize := 0
  rp := 0
  wp := 0
  nreaders := 0
  nwriters := 0

def scullpipe : Printer ScullPipe :=
  scullPrinter vsprintf 4000 (fun i => UInt32.ofNat (4096 + 128 * i)) fun _ => 0

theorem exact_behind_first : ∃ out,
    scullpipe.scullReadPMem (fun _ => false) [closed, closed] (fun _ => 0)
        (scullpipe.front [closed, closed] 1).length = .ok out ∧
    out.window.delivered =
      (scullpipe.front [closed, closed] out.i).drop (scullpipe.front [closed, closed] 1).length := by
  obtain ⟨out, hout⟩ := scullpipe.exists_report (fun _ => rfl) [closed, closed] (fun _ => 0)
    (scullpipe.front [closed, closed] 1).length
  exact ⟨out, hout, (Printer.scullReadPMem_exact_iff hout).mpr
    (Or.inr (Or.inr ⟨1, by decide, by decide, rfl⟩))⟩

/-- A program that has read a hundred bytes reads on. -/
theorem hundred_bytes_too_many : ∃ out,
    scullpipe.scullReadPMem (fun _ => false) [closed] (fun _ => 0) 100 = .ok out ∧
    out.window.delivered ≠ (scullpipe.front [closed] out.i).drop 100 := by
  obtain ⟨out, hout⟩ := scullpipe.exists_report (fun _ => rfl) [closed] (fun _ => 0) 100
  obtain ⟨-, hcut, hstart⟩ := Printer.scullReadPMem_cut hout
  have hinside : 100 < (scullpipe.header ++ scullpipe.record 0 closed).length := by
    decide +kernel
  refine ⟨out, hout, fun heq => ?_⟩
  rw [hcut.delivered_eq_drop_iff, hstart, Printer.chunks, inside_of_lt hinside] at heq
  exact absurd heq (by decide)

/-! Reads that start where the one before has ended. -/

/-- A program that reads on and takes all that is returned, with what it has got so far. -/
structure Reader where
  pos : ℕ
  got : List Byte
  eof : Bool

namespace Reader

variable {D : Type*} {pr : Printer D} {devs : List D} {r r' : Reader}

def initial : Reader := { pos := 0, got := [], eof := false }

/-- A read, with the semaphores that it does not get and the page that it is given. -/
def step (pr : Printer D) (devs : List D) (r : Reader) :
    (ℕ → Bool) × (ℕ → Byte) → Outcome Reader
  | (interrupted, buf) =>
    match pr.scullReadPMem interrupted devs buf r.pos with
    | .error _ => .ok r
    | .ok out =>
      .ok
        { pos := r.pos + out.window.len, got := r.got ++ out.window.delivered, eof := out.eof }

/-- What has been got is the report as far as some device, and all of it at the end of the file. -/
structure Exact (pr : Printer D) (devs : List D) (r : Reader) : Prop where
  pos_eq : r.pos = r.got.length
  got_eq : r.got = [] ∨ ∃ k, 0 < k ∧ k ≤ devs.length ∧ r.got = pr.front devs k
  got_of_eof : r.eof = true → r.got = pr.report devs

end Reader

namespace Printer

variable {D : Type*} {pr : Printer D} {interrupted : ℕ → Bool} {buf : ℕ → Byte} {i j k : ℕ} {p : D}
  {devs : List D} {w w' : Window} {out : Report}

theorem front_prefix (pr : Printer D) (devs : List D) (k : ℕ) : pr.front devs k <+: pr.report devs :=
  (List.prefix_append_right_inj _).mpr (List.take_prefix k _).flatten

theorem front_length (pr : Printer D) (devs : List D) :
    pr.front devs devs.length = pr.report devs := by
  rw [front, report, ← pr.length_records 0, List.take_length]

/-- A loop stops at the end of the devices or of the room. -/
theorem deviceLoop_stops (h : pr.deviceLoop interrupted i devs w = .ok (j, w')) :
    j = i + devs.length ∨ limit < w'.len := by
  induction devs generalizing i w with
  | nil =>
    obtain ⟨rfl, -⟩ := Prod.mk.inj (Except.ok.inj h)
    exact Or.inl rfl
  | cons p devs ih =>
    by_cases hlimit : w.len ≤ limit
    · have hrest := ih (deviceLoop_cons hlimit h)
      rw [List.length_cons]
      omega
    · rw [deviceLoop, if_neg hlimit] at h
      obtain ⟨-, rfl⟩ := Prod.mk.inj (Except.ok.inj h)
      exact Or.inr (Nat.not_le.mp hlimit)

theorem front_of_eof {offset : ℕ} (h : pr.scullReadPMem interrupted devs buf offset = .ok out)
    (heof : out.eof = true) : pr.front devs out.i = pr.report devs := by
  obtain ⟨hloop, hlen⟩ := scullReadPMem_ok h
  rw [hlen, decide_eq_true_iff] at heof
  rcases deviceLoop_stops hloop with hi | hlt
  · rw [hi, Nat.zero_add, front_length]
  · exact absurd hlt (Nat.not_lt.mpr heof)

end Printer

/-- Both texts are the beginning of a third, so one of them goes on where the other ends. -/
theorem append_drop_of_prefix {bs cs ds : List Byte} (hb : bs <+: ds) (hc : cs <+: ds) :
    bs ++ cs.drop bs.length = bs ∨ bs ++ cs.drop bs.length = cs := by
  rcases Nat.le_total cs.length bs.length with hle | hle
  · exact Or.inl (by rw [List.drop_of_length_le hle, List.append_nil])
  · obtain ⟨rest, rfl⟩ := List.prefix_of_prefix_length_le hb hc hle
    exact Or.inr (by rw [List.drop_left])

namespace Reader.Exact

variable {D : Type*} {pr : Printer D} {p : D} {devs : List D} {r r' : Reader}
  {a : (ℕ → Bool) × (ℕ → Byte)}

theorem initial (pr : Printer D) (devs : List D) : Reader.initial.Exact pr devs :=
  ⟨rfl, Or.inl rfl, fun h => absurd h Bool.false_ne_true⟩

theorem atRecord (h : r.Exact pr devs) : pr.AtRecord devs r.pos := by
  rw [h.pos_eq]
  rcases h.got_eq with hnil | ⟨k, hpos, hk, hgot⟩
  · exact Or.inl (congrArg List.length hnil)
  · exact Or.inr (Or.inr ⟨k, hpos, hk, congrArg List.length hgot⟩)

theorem got_prefix (h : r.Exact pr devs) : r.got <+: pr.report devs := by
  rcases h.got_eq with hnil | ⟨k, -, -, hgot⟩
  · exact hnil ▸ List.nil_prefix
  · exact hgot ▸ pr.front_prefix devs k

theorem delivered_eq {interrupted : ℕ → Bool} {buf : ℕ → Byte} {out : Report}
    (h : r.Exact pr (p :: devs))
    (hread : pr.scullReadPMem interrupted (p :: devs) buf r.pos = .ok out) :
    out.window.delivered = (pr.front (p :: devs) out.i).drop r.got.length := by
  obtain ⟨-, hcut, hstart⟩ := Printer.scullReadPMem_cut hread
  rw [(Printer.inside_chunks_eq_zero_iff _).mpr h.atRecord] at hstart
  rw [hcut.delivered_eq_drop_iff.mpr hstart, h.pos_eq]

theorem step (h : r.Exact pr (p :: devs)) (hs : Reader.step pr (p :: devs) r a = .ok r') :
    r'.Exact pr (p :: devs) := by
  obtain ⟨interrupted, buf⟩ := a
  rw [Reader.step] at hs
  cases hread : pr.scullReadPMem interrupted (p :: devs) buf r.pos with
  | error e =>
    rw [hread] at hs
    cases hs
    exact h
  | ok out =>
    rw [hread] at hs
    cases hs
    obtain ⟨⟨hpos, hle⟩, -⟩ := Printer.scullReadPMem_cut hread
    have hdelivered := h.delivered_eq hread
    have hgot := append_drop_of_prefix h.got_prefix (pr.front_prefix (p :: devs) out.i)
    rw [← hdelivered] at hgot
    refine ⟨?_, ?_, fun heof => ?_⟩
    · rw [List.length_append, h.pos_eq, Window.length_delivered]
    · rcases hgot with hsame | hfront
      · exact hsame.symm ▸ h.got_eq
      · exact Or.inr ⟨out.i, hpos, hle, hfront⟩
    · rw [hdelivered, Printer.front_of_eof hread heof]
      exact List.prefix_iff_eq_append.mp h.got_prefix

theorem pos_le (h : r.Exact pr devs) : r.pos ≤ (pr.report devs).length := by
  rw [h.pos_eq]
  exact h.got_prefix.length_le

/-- A read that gets all semaphores comes to the end of the file, or it goes on by more than the
limit and there was no end before it. -/
theorem progress (h : r.Exact pr (p :: devs)) (ha : ∀ i, a.1 i = false) :
    ∃ r', Reader.step pr (p :: devs) r a = .ok r' ∧
      (r'.eof = true ∨ r.eof = false ∧ r.pos + (limit + 1) ≤ r'.pos) := by
  obtain ⟨interrupted, buf⟩ := a
  obtain ⟨out, hread⟩ := pr.exists_report ha (p :: devs) buf r.pos
  have heof := (Printer.scullReadPMem_ok hread).2
  rw [Reader.step, hread]
  refine ⟨_, rfl, ?_⟩
  by_cases hlimit : out.window.len ≤ limit
  · exact Or.inl (heof.trans (decide_eq_true hlimit))
  · refine Or.inr ⟨?_, Nat.add_le_add_left (Nat.not_le.mp hlimit) r.pos⟩
    by_contra hend
    have hall := h.got_of_eof (Bool.eq_true_of_not_eq_false hend)
    have hle := (pr.front_prefix (p :: devs) out.i).length_le
    -- nothing is left to be read
    rw [← Window.length_delivered, h.delivered_eq hread, hall, List.drop_of_length_le hle] at hlimit
    exact hlimit (Nat.zero_le _)

theorem run (h : r.Exact pr (p :: devs)) {as : List ((ℕ → Bool) × (ℕ → Byte))}
    (has : ∀ a ∈ as, ∀ i, a.1 i = false) :
    ∃ r', exec (Reader.step pr (p :: devs)) r as = .ok r' ∧
      (r'.eof = true ∨ r.eof = false ∧ r.pos + as.length * (limit + 1) ≤ r'.pos) := by
  induction as generalizing r with
  | nil =>
    refine ⟨r, rfl, ?_⟩
    rw [List.length_nil, Nat.zero_mul]
    cases r.eof with
    | true => exact Or.inl rfl
    | false => exact Or.inr ⟨rfl, Nat.le_refl _⟩
  | cons a as ih =>
    obtain ⟨s, hs, hnext⟩ := h.progress (has a (List.mem_cons_self ..))
    obtain ⟨r', hr', hrest⟩ := ih (h.step hs) fun b hb => has b (List.mem_cons_of_mem a hb)
    refine ⟨r', (exec_cons_ok hs).trans hr', ?_⟩
    rcases hrest with heof | ⟨hopen, hpos⟩
    · exact Or.inl heof
    · rcases hnext with hend | ⟨hfirst, hle⟩
      · exact absurd (hopen.symm.trans hend) Bool.false_ne_true
      · refine Or.inr ⟨hfirst, ?_⟩
        rw [List.length_cons, Nat.succ_mul]
        omega

end Reader.Exact

/-- Reads that take all that is returned, from the beginning of the file on, reproduce the report. -/
theorem reads_reproduce {D : Type*} {pr : Printer D} {p : D} {devs : List D}
    {as : List ((ℕ → Bool) × (ℕ → Byte))} {r : Reader}
    (he : exec (Reader.step pr (p :: devs)) Reader.initial as = .ok r) : r.Exact pr (p :: devs) :=
  exec_invariant (fun _ _ _ => Reader.Exact.step) (Reader.Exact.initial pr _) he

/-- Enough of them have the whole of it. -/
theorem reads_complete {D : Type*} {pr : Printer D} {p : D} {devs : List D}
    {as : List ((ℕ → Bool) × (ℕ → Byte))} (has : ∀ a ∈ as, ∀ i, a.1 i = false)
    (hmany : (pr.report (p :: devs)).length < as.length * (limit + 1)) :
    ∃ r, exec (Reader.step pr (p :: devs)) Reader.initial as = .ok r ∧
      r.got = pr.report (p :: devs) := by
  obtain ⟨r, hr, heof | ⟨-, hpos⟩⟩ := (Reader.Exact.initial pr (p :: devs)).run has
  · exact ⟨r, hr, (reads_reproduce hr).got_of_eof heof⟩
  · have hle := (reads_reproduce hr).pos_le
    rw [Reader.initial, Nat.zero_add] at hpos
    exact absurd (hpos.trans hle) (Nat.not_le.mpr hmany)

end KernelExperiment.Pipe
