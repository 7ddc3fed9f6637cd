import KernelExperiment.Fixed.Driver
import KernelExperiment.Lib.ByteFile
import KernelExperiment.Lib.Simulation

/-! The fixed-size driver against a byte file of the same capacity. The array always holds the file
with zeros after its end; `dev->size` is the length of the file as long as no write ends before
it. -/

namespace KernelExperiment.Fixed
open Kernel Region Runs ByteFiles

variable {F : Type*}

structure Handle where
  pos : ℕ
  read : Bool
  write : Bool

/-- The reference: a bounded file with its handles and the results so far. -/
structure Reference (F : Type*) where
  file : ByteFile scullDataSize Byte
  handles : F → Option Handle
  results : List Result

namespace Reference

def loaded : Reference F := { file := .empty, handles := fun _ => none, results := [] }

def reply (t : Reference F) (r : Result) : Reference F := { t with results := t.results ++ [r] }

/-- A seek goes to a position that an offset can have, or nowhere. -/
def seek (pos length : ℕ) (off : Int) (whence : ℕ) : Except Errno ℕ :=
  let start : Option ℕ :=
    match whence with
    | 0 => some 0
    | 1 => some pos
    | 2 => some length
    | _ => none
  match start with
  | none => .error .einval
  | some start =>
    if 0 ≤ start + off ∧ start + off < 9223372036854775808 then .ok (start + off).toNat
    else .error .einval

theorem seek_lt {pos length newpos : ℕ} {off : Int} {whence : ℕ}
    (h : seek pos length off whence = .ok newpos) : newpos < 9223372036854775808 := by
  simp only [seek] at h
  split at h
  · cases h
  · split_ifs at h with hin
    cases h
    omega

variable [DecidableEq F]

def setHandle (t : Reference F) (f : F) (h : Handle) : Reference F :=
  { t with handles := Function.update t.handles f (some h) }

def step (t : Reference F) : Act F → Outcome (Reference F)
  | .opens f read write interrupted =>
    if (t.handles f).isSome then .blocked
    else if write && !read && interrupted then .ok (t.reply (.error .erestartsys))
    else
      let file := if write && !read then .empty else t.file
      .ok (({ t with file }.setHandle f { pos := 0, read, write }).reply .opened)
  | .llseek f off whence =>
    match t.handles f with
    | none => .blocked
    | some h =>
      match seek h.pos t.file.bytes.length off.toInt whence with
      | .error e => .ok (t.reply (.error e))
      | .ok pos => .ok ((t.setHandle f { h with pos }).reply (.position pos))
  | .read f count interrupted =>
    match t.handles f with
    | none => .blocked
    | some h =>
      if h.read = false then .blocked
      else if interrupted then .ok (t.reply (.error .erestartsys))
      else
        let bs := t.file.read h.pos count
        .ok ((t.setHandle f { h with pos := h.pos + bs.length }).reply (.bytes bs))
  | .write f buf interrupted =>
    match t.handles f with
    | none => .blocked
    | some h =>
      if h.write = false then .blocked
      else if interrupted then .ok (t.reply (.error .erestartsys))
      else
        match t.file.write h.pos buf with
        | none => .ok (t.reply (.error .enospc))
        | some (n, file) =>
          .ok (({ t with file }.setHandle f { h with pos := h.pos + n }).reply (.stored n))

end Reference

/-- A write that gets the semaphore below the capacity does not end before `dev->size`. -/
def WritesReachSize (s : Sys F) : Act F → Prop
  | .write f buf false => ∀ file ∈ s.files f, file.write = true → file.fPos < scullDataSize →
      (s.dev.size : Int) ≤ file.fPos + buf.length
  | _ => True

instance decidableWritesReachSize (s : Sys F) : ∀ a, Decidable (WritesReachSize s a)
  | .write f buf false =>
    inferInstanceAs (Decidable (∀ file ∈ s.files f, file.write = true →
      file.fPos < scullDataSize → (s.dev.size : Int) ≤ file.fPos + buf.length))
  | .write _ _ true => isTrue trivial
  | .opens .. => isTrue trivial
  | .llseek .. => isTrue trivial
  | .read .. => isTrue trivial

/-! One operation on the array and on the file that it holds. -/

section
variable {dev : ScullDev} {file : ByteFile scullDataSize Byte} {p : ℕ}

structure Holds (dev : ScullDev) (file : ByteFile scullDataSize Byte) : Prop where
  data : dev.data = image scullDataSize file.bytes
  size : dev.size = file.bytes.length

theorem length_lt (file : ByteFile scullDataSize Byte) : file.bytes.length < 4294967296 :=
  Nat.lt_of_le_of_lt file.bounded (by decide)

theorem Holds.scullRead (h : Holds dev file) (p count : ℕ) :
    dev.scullRead p count none = some (.ok (file.read p count)) := by
  have hb := file.bounded
  rw [ScullDev.scullRead, h.size, h.data, ByteFile.read]
  rcases Nat.lt_or_ge p file.bytes.length with hlt | hge
  · have hfit : p + min count (file.bytes.length - p) ≤ file.bytes.length := by omega
    have hrange : p + min count (file.bytes.length - p) ≤
        (image scullDataSize file.bytes).length := by
      rw [length_image hb]
      exact Nat.le_trans hfit hb
    rw [if_neg (by omega), cutCount_eq count hlt (length_lt file)]
    dsimp only
    rw [readFrom_natCast, readRange_of_le hrange, Option.map_some, if_pos (copyOk_none _),
      drop_take_image hfit, List.take_eq_take_min, List.length_drop, Nat.min_assoc, Nat.min_self,
      ← List.length_drop, ← List.take_eq_take_min]
  · rw [if_pos (by omega), List.drop_of_length_le hge, List.take_nil]

/-- A write below the capacity stores the same bytes in both, and makes its end the size. -/
theorem Holds.scullWrite (h : Holds dev file) (hp : p < scullDataSize) (buf : List Byte) :
    ∃ n file', n = min buf.length (scullDataSize - p) ∧ file.write p buf = some (n, file') ∧
      file'.bytes.length = max file.bytes.length (p + n) ∧
        dev.scullWrite p buf none =
          some (.ok n, { data := image scullDataSize file'.bytes, size := p + n }) := by
  obtain ⟨n, hn⟩ : ∃ n, n = min buf.length (scullDataSize - p) := ⟨_, rfl⟩
  have hb := file.bounded
  have hcap : scullDataSize < 4294967296 := by decide
  have htake : buf.take n = buf.take (scullDataSize - p) := by
    rw [hn, Nat.min_comm, ← List.take_eq_take_min]
  have hlen : (buf.take (scullDataSize - p)).length = n := by
    rw [List.length_take, hn, Nat.min_comm]
  have hfit : p + (buf.take (scullDataSize - p)).length ≤ scullDataSize := by omega
  have hrange : p + (buf.take (scullDataSize - p)).length ≤
      (image scullDataSize file.bytes).length := by
    rwa [length_image hb]
  have hpos : toLoff ((p : Int) + n) = ((p + n : ℕ) : Int) := toLoff_natCast_add (by omega)
  have hsize : sizeT ((p + n : ℕ) : Int) = p + n := by
    rw [sizeT_of_lt, Int.toNat_natCast] <;> omega
  refine ⟨n, _, hn, by rw [ByteFile.write, dif_pos hp, ← hn], ?_, ?_⟩
  · rw [length_overwrite, hlen]
  · rw [ScullDev.scullWrite, if_neg (by omega), cutCount_eq buf.length hp hcap, ← hn, h.data]
    dsimp only
    rw [htake, copiedIn_of_ok (copyOk_none _), writeTo_natCast, writeRange_of_le hrange,
      splice_image hb hfit, Option.map_some, if_pos (copyOk_none _), hpos, hsize]

end

/-! Whole calls. -/

def Handle.toFile (h : Handle) : File := { fPos := h.pos, read := h.read, write := h.write }

theorem Handle.toFile_advance (h : Handle) {n : ℕ} (hlt : h.pos + n < 9223372036854775808) :
    ({ h.toFile with fPos := toLoff (h.pos + n) } : File) =
      Handle.toFile { h with pos := h.pos + n } := by
  rw [toLoff_natCast_add hlt]
  rfl

/-- The states correspond, but for the size of the device. -/
structure Similar (s : Sys F) (t : Reference F) : Prop where
  data : s.dev.data = image scullDataSize t.file.bytes
  size_le : s.dev.size ≤ t.file.bytes.length
  files : ∀ f, s.files f = (t.handles f).map Handle.toFile
  pos_lt : ∀ f, ∀ h ∈ t.handles f, h.pos < 9223372036854775808
  results : s.results = t.results

structure Corresponds (s : Sys F) (t : Reference F) : Prop extends Similar s t where
  size : s.dev.size = t.file.bytes.length

namespace Similar

variable {s : Sys F} {t : Reference F}

theorem reply (h : Similar s t) (r : Result) : Similar (s.reply r) (t.reply r) :=
  ⟨h.data, h.size_le, h.files, h.pos_lt, congrArg (· ++ [r]) h.results⟩

variable [DecidableEq F]

theorem setFile (h : Similar s t) (f : F) {file : File} (handle : Handle)
    (hfile : file = handle.toFile) (hpos : handle.pos < 9223372036854775808) :
    Similar (s.setFile f file) (t.setHandle f handle) := by
  refine ⟨h.data, h.size_le, fun g => ?_, ?_, h.results⟩
  · show Function.update s.files f (some file) g =
      (Function.update t.handles f (some handle) g).map _
    rcases eq_or_ne g f with rfl | hne
    · rw [Function.update_self, Function.update_self, hfile, Option.map_some]
    · rw [Function.update_of_ne hne, Function.update_of_ne hne, h.files g]
  · apply (Function.forall_update_iff t.handles fun _ o => ∀ h ∈ o,
      h.pos < 9223372036854775808).mpr
    refine ⟨fun h' hh => ?_, fun g _ => h.pos_lt g⟩
    rw [Option.mem_some_iff] at hh
    rwa [← hh]

end Similar

theorem llseek_eq_seek {pos length : ℕ} (hpos : pos < 9223372036854775808)
    (hlen : length < 9223372036854775808) (off : Int64) (whence : ℕ) :
    llseek pos length off.toInt whence =
      (Reference.seek pos length off.toInt whence).map Int.ofNat := by
  have h1 : -9223372036854775808 ≤ off.toInt := off.le_toInt
  have h2 : off.toInt < 9223372036854775808 := off.toInt_lt
  generalize off.toInt = x at h1 h2
  have hgo : ∀ start : ℕ, start < 9223372036854775808 → ∀ y : Int,
      y = (if start + x < 9223372036854775808 then start + x
        else start + x - 18446744073709551616) →
      (if y < 0 then Except.error Errno.einval else .ok y) =
        (if 0 ≤ start + x ∧ start + x < 9223372036854775808 then
          Except.ok (start + x).toNat else .error .einval).map Int.ofNat := by
    intro start hs y hy
    rcases em (0 ≤ start + x ∧ start + x < 9223372036854775808) with hin | hout
    · rw [if_pos hin.2] at hy
      rw [if_pos hin, if_neg (by omega), hy]
      exact congrArg Except.ok (Int.toNat_of_nonneg hin.1).symm
    · rw [if_neg hout, if_pos (by split_ifs at hy <;> omega)]
      rfl
  rcases whence with _ | _ | _ | whence
  · exact hgo 0 (by decide) x (by rw [if_pos (by omega)]; omega)
  · exact hgo pos hpos _ (toLoff_add hpos h1 h2)
  · exact hgo length hlen _ (toLoff_add hlen h1 h2)
  · rfl

theorem Corresponds.holds {s : Sys F} {t : Reference F} (h : Corresponds s t) :
    Holds s.dev t.file := ⟨h.data, h.size⟩

/-- What a call leads to from corresponding states: the states stay similar, and they correspond
exactly when the call is no write that ends before the size. -/
def Leads (s : Sys F) (a : Act F) (s' : Sys F) (t' : Reference F) : Prop :=
  Similar s' t' ∧ (s'.dev.size = t'.file.bytes.length ↔ WritesReachSize s a)

variable [DecidableEq F] {s : Sys F} {t : Reference F}

theorem opens_leads (h : Corresponds s t) (f : F) (read write i : Bool) :
    (Sys.step s (.opens f read write i)).Related (Leads s (.opens f read write i))
      (Reference.step t (.opens f read write i)) := by
  have hsim := h.toSimilar
  cases hh : t.handles f with
  | some handle =>
    have hopen : (some handle).isSome = true := rfl
    rw [Sys.step, Reference.step, h.files f, hh, if_pos (by simp), if_pos hopen]
    exact trivial
  | none =>
    have hstart : 0 < 9223372036854775808 := by decide
    have hclosed : ¬(none : Option Handle).isSome = true := Bool.false_ne_true
    rw [Sys.step, Reference.step, h.files f, hh, if_neg (by simp), if_neg hclosed]
    split_ifs with hi ht
    · exact ⟨hsim.reply _, iff_of_true h.size trivial⟩
    · have htrim : Similar { s with dev := s.dev.scullTrim } { t with file := .empty } :=
        ⟨rfl, Nat.le_refl 0, h.files, h.pos_lt, h.results⟩
      have hnew := htrim.setFile f { pos := 0, read, write } rfl hstart
      exact ⟨hnew.reply _, iff_of_true rfl trivial⟩
    · have hnew := hsim.setFile f { pos := 0, read, write } rfl hstart
      exact ⟨hnew.reply _, iff_of_true h.size trivial⟩

theorem llseek_leads (h : Corresponds s t) {f : F} {handle : Handle}
    (hh : t.handles f = some handle) (off : Int64) (whence : ℕ) :
    (Sys.step s (.llseek f off whence)).Related (Leads s (.llseek f off whence))
      (Reference.step t (.llseek f off whence)) := by
  have hpos := h.pos_lt f handle hh
  have hbounded := length_lt t.file
  have hseek : s.dev.scullLlseek handle.toFile off.toInt whence =
      (Reference.seek handle.pos t.file.bytes.length off.toInt whence).map Int.ofNat := by
    rw [← llseek_eq_seek hpos (by omega), ← h.size]
    rfl
  simp only [Sys.step, Reference.step, h.files f, hh, Option.map_some, hseek]
  cases hto : Reference.seek handle.pos t.file.bytes.length off.toInt whence with
  | error e => exact ⟨h.toSimilar.reply _, iff_of_true h.size trivial⟩
  | ok pos =>
    have hmoved := h.toSimilar.setFile f { handle with pos } rfl (Reference.seek_lt hto)
    exact ⟨hmoved.reply _, iff_of_true h.size trivial⟩

theorem read_leads (h : Corresponds s t) {f : F} {handle : Handle}
    (hh : t.handles f = some handle) (count : ℕ) (i : Bool) :
    (Sys.step s (.read f count i)).Related (Leads s (.read f count i))
      (Reference.step t (.read f count i)) := by
  have hpos := h.pos_lt f handle hh
  have hbounded := length_lt t.file
  have hread : s.dev.scullRead handle.toFile.fPos count none = _ :=
    h.holds.scullRead handle.pos count
  simp only [Sys.step, Reference.step, h.files f, hh, Option.map_some, hread]
  show Outcome.Related _ (if handle.read = false then _ else _) _
  split_ifs with hr hi
  · exact trivial
  · exact ⟨h.toSimilar.reply _, iff_of_true h.size trivial⟩
  · obtain ⟨bs, hbs⟩ : ∃ bs, bs = t.file.read handle.pos count := ⟨_, rfl⟩
    have hlt : handle.pos + bs.length < 9223372036854775808 := by
      rw [hbs, ByteFile.read, List.length_take, List.length_drop]
      omega
    have hmoved := h.toSimilar.setFile f { handle with pos := handle.pos + bs.length }
      (handle.toFile_advance hlt) hlt
    rw [← hbs]
    exact ⟨hmoved.reply _, iff_of_true h.size trivial⟩

theorem store_leads (h : Corresponds s t) {f : F} {handle : Handle}
    (hh : t.handles f = some handle) (hw : handle.write = true) (hlt : handle.pos < scullDataSize)
    (buf : List Byte) :
    (Sys.step s (.write f buf false)).Related (Leads s (.write f buf false))
      (Reference.step t (.write f buf false)) := by
  obtain ⟨n, file', hn, hmeant, hlen, hwrite⟩ := h.holds.scullWrite hlt buf
  have hfile : s.files f = some handle.toFile := by rw [h.files f, hh, Option.map_some]
  have hcap : scullDataSize = 16 := rfl
  have hlt' : handle.pos + n < 9223372036854775808 := by omega
  have hstored : Similar
      { s with dev := { data := image scullDataSize file'.bytes, size := handle.pos + n } }
      { t with file := file' } :=
    ⟨rfl, by rw [hlen]; exact Nat.le_max_right .., h.files, h.pos_lt, h.results⟩
  have hmeets : handle.pos + n = file'.bytes.length ↔ WritesReachSize s (.write f buf false) := by
    have hb := t.file.bounded
    have hsize := h.size
    simp only [WritesReachSize, hfile, Option.mem_some_iff, forall_eq', Handle.toFile, hw,
      forall_const, hlen]
    omega
  have hmoved := hstored.setFile f { handle with pos := handle.pos + n }
    (handle.toFile_advance hlt') hlt'
  have hmay : ¬handle.write = false := ne_false_of_eq_true hw
  have hmay' : ¬handle.toFile.write = false := hmay
  have hcode : s.dev.scullWrite handle.toFile.fPos buf none = _ := hwrite
  simp only [Sys.step, Reference.step, hfile, hh, hcode, hmeant, Bool.false_eq_true, if_false]
  rw [if_neg hmay, if_neg hmay']
  exact ⟨hmoved.reply _, hmeets⟩

theorem write_leads (h : Corresponds s t) {f : F} {handle : Handle}
    (hh : t.handles f = some handle) (buf : List Byte) (i : Bool) :
    (Sys.step s (.write f buf i)).Related (Leads s (.write f buf i))
      (Reference.step t (.write f buf i)) := by
  have hfile : s.files f = some handle.toFile := by rw [h.files f, hh, Option.map_some]
  rcases em (handle.write = true ∧ i = false ∧ handle.pos < scullDataSize) with
    ⟨hw, rfl, hlt⟩ | hother
  · exact store_leads h hh hw hlt buf
  · simp only [Sys.step, Reference.step, hfile, hh]
    show Outcome.Related _ (if handle.write = false then _ else _) _
    split_ifs with hw hi
    · exact trivial
    · subst hi
      exact ⟨h.toSimilar.reply _, iff_of_true h.size trivial⟩
    · rw [Bool.not_eq_true] at hi
      rw [Bool.not_eq_false] at hw
      have hge : scullDataSize ≤ handle.pos := Nat.not_lt.mp fun hlt => hother ⟨hw, hi, hlt⟩
      have hfull : s.dev.scullWrite handle.toFile.fPos buf none = some (.error .enospc, s.dev) :=
        if_pos (Int.ofNat_le.mpr hge)
      subst hi
      rw [hfull, ByteFile.write, dif_neg (Nat.not_lt.mpr hge)]
      refine ⟨h.toSimilar.reply _, iff_of_true h.size ?_⟩
      intro file hf _ hbelow
      rw [hfile, Option.mem_some_iff] at hf
      subst hf
      exact absurd (Int.ofNat_lt.mp hbelow) (Nat.not_lt.mpr hge)

theorem step_leads (h : Corresponds s t) (a : Act F) :
    (Sys.step s a).Related (Leads s a) (Reference.step t a) := by
  have hclosed : ∀ f, t.handles f = none → s.files f = none := fun f hh => by
    rw [h.files f, hh, Option.map_none]
  cases a with
  | opens f read write i => exact opens_leads h f read write i
  | llseek f off whence =>
    cases hh : t.handles f with
    | none =>
      simp only [Sys.step, Reference.step, hclosed f hh, hh]
      exact trivial
    | some handle => exact llseek_leads h hh off whence
  | read f count i =>
    cases hh : t.handles f with
    | none =>
      simp only [Sys.step, Reference.step, hclosed f hh, hh]
      exact trivial
    | some handle => exact read_leads h hh count i
  | write f buf i =>
    cases hh : t.handles f with
    | none =>
      simp only [Sys.step, Reference.step, hclosed f hh, hh]
      exact trivial
    | some handle => exact write_leads h hh buf i

/-- Seeking to the end tells the size, so a size that is not the length of the file shows. -/
theorem Similar.size_eq_of_llseek (h : Similar s t) {f : F} (hf : (s.files f).isSome) {off : Int64}
    (hoff : off.toInt = 0)
    (hsame : (Sys.step s (.llseek f off 2)).map Sys.results =
      (Reference.step t (.llseek f off 2)).map Reference.results) :
    s.dev.size = t.file.bytes.length := by
  have hlen : t.file.bytes.length < 9223372036854775808 :=
    Nat.lt_of_le_of_lt t.file.bounded (by decide)
  have hsize : s.dev.size < 9223372036854775808 := Nat.lt_of_le_of_lt h.size_le hlen
  rw [h.files f, Option.isSome_map] at hf
  obtain ⟨handle, hh⟩ := Option.isSome_iff_exists.mp hf
  have hcode : s.dev.scullLlseek handle.toFile off.toInt 2 = .ok s.dev.size := by
    rw [hoff]
    exact llseek_end hsize
  have hmeant : Reference.seek handle.pos t.file.bytes.length off.toInt 2 =
      .ok t.file.bytes.length := by
    rw [hoff]
    simp only [Reference.seek, Int.add_zero, Int.toNat_natCast]
    exact if_pos ⟨Int.natCast_nonneg _, Int.ofNat_lt.mpr hlen⟩
  have hfile : s.files f = some handle.toFile := by rw [h.files f, hh, Option.map_some]
  have hanswer : (Sys.step s (.llseek f off 2)).map Sys.results =
      .ok (s.results ++ [.position s.dev.size]) := by
    simp only [Sys.step, hfile, hcode]
    rfl
  have hwanted : (Reference.step t (.llseek f off 2)).map Reference.results =
      .ok (t.results ++ [.position t.file.bytes.length]) := by
    simp only [Reference.step, hh, hmeant]
    rfl
  rw [hanswer, hwanted, h.results, Outcome.ok.injEq] at hsame
  have hposition := List.append_cancel_left hsame
  rw [List.cons.injEq, Result.position.injEq] at hposition
  exact Int.ofNat_inj.mp hposition.1

theorem setFile_isSome {f g : F} {file : File} (hf : (s.files f).isSome) :
    ((s.setFile g file).files f).isSome := by
  show (Function.update s.files g (some file) f).isSome
  rcases eq_or_ne f g with rfl | hne
  · rw [Function.update_self]
    rfl
  · rw [Function.update_of_ne hne]
    exact hf

theorem write_stays_open {f : F} {buf : List Byte} {i : Bool} {s' : Sys F}
    (hs : Sys.step s (.write f buf i) = .ok s') : (s'.files f).isSome := by
  simp only [Sys.step] at hs
  split at hs
  · cases hs
  · rename_i file hfile
    have hsome : (s.files f).isSome := by rw [hfile]; rfl
    split_ifs at hs
    · cases hs
      exact hsome
    · split at hs <;> cases hs
      · exact hsome
      · exact setFile_isSome hsome

theorem writesReachSize_of_same (h : Corresponds s t) {a : Act F} {s' : Sys F} {t' : Reference F}
    (hs : Sys.step s a = .ok s') (ht : Reference.step t a = .ok t')
    (hsame : ∀ b, (Sys.step s' b).map Sys.results = (Reference.step t' b).map Reference.results) :
    WritesReachSize s a := by
  have hrel := step_leads h a
  rw [hs, ht] at hrel
  obtain ⟨hsim, hiff⟩ := hrel
  cases a with
  | write f buf i =>
    exact hiff.mp (hsim.size_eq_of_llseek (write_stays_open hs) Int64.toInt_zero
      (hsame (.llseek f 0 2)))
  | _ => trivial

theorem writesReachSize_of_stuck (h : Corresponds s t) {a : Act F}
    (hs : ∀ s', Sys.step s a ≠ .ok s') : WritesReachSize s a := by
  cases a with
  | write f buf i =>
    cases i with
    | true => trivial
    | false =>
      intro file hf hw hlt
      rw [Option.mem_def, h.files f, Option.map_eq_some_iff] at hf
      obtain ⟨handle, hh, rfl⟩ := hf
      obtain ⟨n, file', -, -, -, hwrite⟩ := h.holds.scullWrite (Int.ofNat_lt.mp hlt) buf
      have hcode : s.dev.scullWrite handle.toFile.fPos buf none = _ := hwrite
      have hok : ∃ s', Sys.step s (.write f buf false) = .ok s' := by
        simp only [Sys.step, h.files f, hh, Option.map_some, hw, hcode]
        exact ⟨_, rfl⟩
      obtain ⟨s', hs'⟩ := hok
      exact absurd hs' (hs s')
  | _ => trivial

/-- The driver answers a run of calls, and any one call after each of its beginnings, as the byte
file does exactly when no write of the run ends before the size of the device. -/
theorem refines_iff_writesReachSize (as : List (Act F)) :
    SameAnswers Sys.step Reference.step Sys.results Reference.results Sys.loaded Reference.loaded
      as ↔ Meets Sys.step WritesReachSize Sys.loaded as := by
  refine sameAnswers_iff_meets (R := Corresponds) (fun s t a h hg => ?_) (fun s t a h => ?_)
    (fun s t a s' t' h hs ht => writesReachSize_of_same h hs ht)
    (fun s t a h => writesReachSize_of_stuck h) ?_
  · exact (step_leads h a).imp fun s' t' hst => ⟨hst.1, hst.2.mpr hg⟩
  · exact (step_leads h a).map_eq fun s' t' hst => hst.1.results
  · exact ⟨⟨rfl, Nat.le_refl 0, fun _ => rfl, fun _ _ hh => (by cases hh), rfl⟩, rfl⟩

def rewriteFirst : List (Act ℕ) :=
  [.opens 0 true true false, .write 0 [1, 2] false, .llseek 0 0 0, .write 0 [3] false,
    .read 0 1 false]

theorem rewrite_truncates :
    (exec Sys.step Sys.loaded rewriteFirst).map Sys.results ≠
      (exec Reference.step Reference.loaded rewriteFirst).map Reference.results := by
  decide

end KernelExperiment.Fixed
