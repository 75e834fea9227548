import LockdepSpdk.Blk.Building
import LockdepSpdk.Lib.Copies
import Mathlib.Data.List.Pairwise

/-!
# What tasks copy

A task copies bytes between the device and the caller's memory, and so does the
request it is a part of. Splitting a request changes neither which bytes meet nor
what is left alone.
-/

namespace LockdepSpdk.Blk

set_option autoImplicit false

open ByteRange

namespace Job

/-- The bytes of its payload that a read drops. -/
def skip (j : Job) : Nat :=
  match j.fillCb with
  | some f => f.tmpOff
  | none => 0

def mem (j : Job) : Nat :=
  match j.fillCb with
  | some f => f.buf
  | none => j.buf

def count (j : Job) : Nat :=
  match j.fillCb with
  | some f => f.tmpLen
  | none => j.len

/-- Between the device, which is the first memory, and the caller's. -/
def copy (j : Job) : Copy where
  toFirst := decide (j.command = .writeCommand)
  a := j.offset + j.skip
  b := j.mem
  n := j.count

def ofWrite (off len buf : Nat) : Job := ⟨.writeCommand, off, len, buf, none⟩

def ofRead (off n skip len buf : Nat) : Job := ⟨.readCommand, off, n, 0, some ⟨buf, skip, len⟩⟩

def split (j : Job) : List Job :=
  match j.fillCb with
  | none => (writeChunks j.offset j.len j.buf).map WriteChunk.job
  | some f => ((readChunks j.offset f.buf j.len (j.offset + f.tmpOff) f.tmpLen).getD []).map
      ReadChunk.job

theorem none_skip {j : Job} (h : j.fillCb = none) : j.skip = 0 := by
  unfold skip
  rw [h]

theorem none_mem {j : Job} (h : j.fillCb = none) : j.mem = j.buf := by
  unfold mem
  rw [h]

theorem none_count {j : Job} (h : j.fillCb = none) : j.count = j.len := by
  unfold count
  rw [h]

theorem toFirst_iff {j : Job} : j.copy.toFirst ↔ j.command = .writeCommand := decide_eq_true_iff

end Job

/-- Jobs that `disk` and `mem` are to agree along in the end: the reads take blocks that none of
the writes changes, into memory that none of them writes from. -/
structure Planned (blockSize : Nat) (disk mem : Nat → UInt8) (l : List Job) : Prop where
  kind : ∀ j ∈ l, (j.command = .writeCommand ∧ j.fillCb = none) ∨
    (j.command = .readCommand ∧ ∃ f, j.fillCb = some f)
  blocks : ∀ j ∈ l, blockSize ∣ j.offset ∧ blockSize ∣ j.len
  fit : ∀ j ∈ l, j.skip + j.count ≤ j.len ∧ j.skip ≤ dataBufferSize
  agree : ∀ j ∈ l, ∀ i, i < j.count → disk (j.offset + j.skip + i) = mem (j.mem + i)
  device : ∀ r ∈ l, ∀ w ∈ l, r.command = .readCommand → w.command = .writeCommand →
    Apart r.offset r.len w.offset w.len
  memory : ∀ r ∈ l, ∀ w ∈ l, r.command = .readCommand → w.command = .writeCommand →
    Apart r.mem r.count w.mem w.count

/-- The jobs `js` copy what `j` copies, each within it. -/
structure Divides (blockSize : Nat) (j : Job) (js : List Job) : Prop where
  kind : ∀ k ∈ js, k.command = j.command ∧ (k.fillCb = none ↔ j.fillCb = none)
  blocks : ∀ k ∈ js, blockSize ∣ k.offset ∧ blockSize ∣ k.len
  fit : ∀ k ∈ js, k.skip + k.count ≤ k.len ∧ k.skip ≤ j.skip
  device : ∀ k ∈ js, j.offset ≤ k.offset ∧ k.offset + k.len ≤ j.offset + j.len
  memory : ∀ k ∈ js, j.mem ≤ k.mem ∧ k.mem + k.count ≤ j.mem + j.count
  part : ∀ k ∈ js, ∀ i, i < k.count → ∃ i', i' < j.count ∧
    k.offset + k.skip + i = j.offset + j.skip + i' ∧ k.mem + i = j.mem + i'
  whole : ∀ i, i < j.count → ∃ k ∈ js, ∃ i', i' < k.count ∧
    k.offset + k.skip + i' = j.offset + j.skip + i ∧ k.mem + i' = j.mem + i

section
variable {b : Nat} {disk mem m : Nat → UInt8} {l js : List Job} {j : Job}

theorem Planned.of_write (h : Planned b disk mem l) (hj : j ∈ l) (hw : j.command = .writeCommand) :
    j.fillCb = none := by
  rcases h.kind j hj with ⟨_, hnone⟩ | ⟨hr, _⟩
  · exact hnone
  · rw [hw] at hr
    cases hr

theorem Planned.of_read (h : Planned b disk mem l) (hj : j ∈ l) (hr : j.command ≠ .writeCommand) :
    j.command = .readCommand ∧ ∃ f, j.fillCb = some f := by
  rcases h.kind j hj with ⟨hw, _⟩ | hread
  · exact absurd hw hr
  · exact hread

theorem Planned.mono (h : Planned b disk mem l) (hle : ∀ j ∈ js, j ∈ l) :
    Planned b disk mem js where
  kind := fun j hj => h.kind j (hle j hj)
  blocks := fun j hj => h.blocks j (hle j hj)
  fit := fun j hj => h.fit j (hle j hj)
  agree := fun j hj => h.agree j (hle j hj)
  device := fun r hr w hw => h.device r (hle r hr) w (hle w hw)
  memory := fun r hr w hw => h.memory r (hle r hr) w (hle w hw)

/-- Copies that are independent can be planned, and end as they do one after the other. -/
theorem planned_of_independent (d : (Nat → UInt8) × (Nat → UInt8))
    (hkind : ∀ j ∈ l, (j.command = .writeCommand ∧ j.fillCb = none) ∨
      (j.command = .readCommand ∧ ∃ f, j.fillCb = some f))
    (hblocks : ∀ j ∈ l, b ∣ j.offset ∧ b ∣ j.len)
    (hfit : ∀ j ∈ l, j.skip + j.count ≤ j.len ∧ j.skip ≤ dataBufferSize)
    (hdevice : ∀ r ∈ l, ∀ w ∈ l, r.command = .readCommand → w.command = .writeCommand →
      Apart r.offset r.len w.offset w.len)
    (hind : l.Pairwise fun j k => Independent j.copy k.copy) :
    Planned b (runAll (l.map Job.copy) d).1 (runAll (l.map Job.copy) d).2 l where
  kind := hkind
  blocks := hblocks
  fit := hfit
  agree := by
    intro j hj i hi
    exact runAll_agree (List.pairwise_map.mpr hind) d (List.mem_map_of_mem (f := Job.copy) hj) hi
  device := hdevice
  memory := by
    intro r hr w hw hread hwrite
    have hne : r ≠ w := by
      intro heq
      rw [heq, hwrite] at hread
      cases hread
    have hsymm : Std.Symm fun j k : Job => Independent j.copy k.copy := ⟨fun _ _ h => h.symm⟩
    apply (hind.forall hr hw hne).second
    left
    rw [Job.toFirst_iff, hread]
    exact IOCommand.noConfusion

theorem Planned.divide {f : Job → List Job} (h : Planned b disk mem l)
    (hf : ∀ j ∈ l, Divides b j (f j)) : Planned b disk mem (l.flatMap f) := by
  refine ⟨?_, ?_, ?_, ?_, ?_, ?_⟩
  · intro k hk
    obtain ⟨j, hj, hkj⟩ := List.mem_flatMap.mp hk
    obtain ⟨hcommand, hfill⟩ := (hf j hj).kind k hkj
    rcases h.kind j hj with ⟨hw, hnone⟩ | ⟨hr, f', hsome⟩
    · exact Or.inl ⟨hcommand.trans hw, hfill.mpr hnone⟩
    · refine Or.inr ⟨hcommand.trans hr, Option.ne_none_iff_exists'.mp ?_⟩
      rw [Ne, hfill, hsome]
      exact Option.some_ne_none f'
  · intro k hk
    obtain ⟨j, hj, hkj⟩ := List.mem_flatMap.mp hk
    exact (hf j hj).blocks k hkj
  · intro k hk
    obtain ⟨j, hj, hkj⟩ := List.mem_flatMap.mp hk
    have hfit := (hf j hj).fit k hkj
    exact ⟨hfit.1, Nat.le_trans hfit.2 (h.fit j hj).2⟩
  · intro k hk i hi
    obtain ⟨j, hj, hkj⟩ := List.mem_flatMap.mp hk
    obtain ⟨i', hi', hdev, hmem⟩ := (hf j hj).part k hkj i hi
    rw [hdev, hmem]
    exact h.agree j hj i' hi'
  · intro r hr w hw hread hwrite
    obtain ⟨j, hj, hrj⟩ := List.mem_flatMap.mp hr
    obtain ⟨k, hk, hwk⟩ := List.mem_flatMap.mp hw
    have hrd := (hf j hj).device r hrj
    have hwd := (hf k hk).device w hwk
    apply (h.device j hj k hk _ _).mono hrd.1 hrd.2 hwd.1 hwd.2
    · rw [← ((hf j hj).kind r hrj).1]
      exact hread
    · rw [← ((hf k hk).kind w hwk).1]
      exact hwrite
  · intro r hr w hw hread hwrite
    obtain ⟨j, hj, hrj⟩ := List.mem_flatMap.mp hr
    obtain ⟨k, hk, hwk⟩ := List.mem_flatMap.mp hw
    have hrm := (hf j hj).memory r hrj
    have hwm := (hf k hk).memory w hwk
    apply (h.memory j hj k hk _ _).mono hrm.1 hrm.2 hwm.1 hwm.2
    · rw [← ((hf j hj).kind r hrj).1]
      exact hread
    · rw [← ((hf k hk).kind w hwk).1]
      exact hwrite

theorem settled_first_divide {f : Job → List Job}
    (h : Settled m disk (firstTargets (l.map Job.copy))) (hf : ∀ j ∈ l, Divides b j (f j)) :
    Settled m disk (firstTargets ((l.flatMap f).map Job.copy)) := by
  intro x hx
  apply h
  rintro a n ⟨c, hc, hto, rfl, rfl⟩ hin
  obtain ⟨j, hj, rfl⟩ := List.mem_map.mp hc
  obtain ⟨i, hi, rfl⟩ := hin.offset
  obtain ⟨k, hk, i', hi', hdev, _⟩ := (hf j hj).whole i hi
  have hto' : k.copy.toFirst := by
    rw [Job.toFirst_iff] at hto ⊢
    exact ((hf j hj).kind k hk).1.trans hto
  refine hx _ _ ⟨k.copy, List.mem_map_of_mem (List.mem_flatMap.mpr ⟨j, hj, hk⟩), hto', rfl, rfl⟩ ?_
  change Within (k.offset + k.skip) k.count (j.offset + j.skip + i)
  rw [← hdev]
  exact within_add.mpr hi'

theorem settled_second_divide {f : Job → List Job}
    (h : Settled m mem (secondTargets (l.map Job.copy))) (hf : ∀ j ∈ l, Divides b j (f j)) :
    Settled m mem (secondTargets ((l.flatMap f).map Job.copy)) := by
  intro x hx
  apply h
  rintro a n ⟨c, hc, hto, rfl, rfl⟩ hin
  obtain ⟨j, hj, rfl⟩ := List.mem_map.mp hc
  obtain ⟨i, hi, rfl⟩ := hin.offset
  obtain ⟨k, hk, i', hi', _, hmem⟩ := (hf j hj).whole i hi
  have hto' : ¬ k.copy.toFirst := by
    rw [Job.toFirst_iff] at hto ⊢
    rw [((hf j hj).kind k hk).1]
    exact hto
  refine hx _ _ ⟨k.copy, List.mem_map_of_mem (List.mem_flatMap.mpr ⟨j, hj, hk⟩), hto', rfl, rfl⟩ ?_
  change Within k.mem k.count (j.mem + i)
  rw [← hmem]
  exact within_add.mpr hi'

end

/-! The two splits. -/

theorem write_divides {b off len buf : Nat} (h : off + len < 2 ^ 64) (hb : b ∣ splitSize)
    (hoff : b ∣ off) (hlen : b ∣ len) :
    Divides b (Job.ofWrite off len buf) (Job.ofWrite off len buf).split := by
  have hw : WriteSplit off len buf (writeChunks off len buf) := writeChunks_spec h
  have hchunk : ∀ k ∈ (Job.ofWrite off len buf).split, ∃ c ∈ writeChunks off len buf,
      c.job = k ∧ off ≤ c.off ∧ c.off + c.len ≤ off + len ∧ c.buf + off = buf + c.off := by
    intro k hk
    obtain ⟨c, hc, heq⟩ := List.mem_map.mp hk
    have hbounds := hw.tiles.bounds (List.mem_map_of_mem (f := fun c => (c.off, c.len)) hc)
    exact ⟨c, hc, heq, hbounds.1, hbounds.2, hw.source c hc⟩
  refine ⟨?_, ?_, ?_, ?_, ?_, ?_, ?_⟩
  · intro k hk
    obtain ⟨c, _, rfl, _⟩ := hchunk k hk
    exact ⟨rfl, Iff.rfl⟩
  · intro k hk
    obtain ⟨c, hc, rfl, _⟩ := hchunk k hk
    exact hw.blocks b hb hoff hlen c hc
  · intro k hk
    obtain ⟨c, _, rfl, _⟩ := hchunk k hk
    exact ⟨Nat.le_of_eq (Nat.zero_add _), Nat.le_refl _⟩
  · intro k hk
    obtain ⟨c, _, rfl, hle, hend, _⟩ := hchunk k hk
    exact ⟨hle, hend⟩
  · intro k hk
    obtain ⟨c, _, rfl, hle, hend, hsrc⟩ := hchunk k hk
    change buf ≤ c.buf ∧ c.buf + c.len ≤ buf + len
    omega
  · intro k hk i hi
    obtain ⟨c, _, rfl, hle, hend, hsrc⟩ := hchunk k hk
    change i < c.len at hi
    refine ⟨c.off - off + i, ?_, ?_, ?_⟩
    · change c.off - off + i < len
      omega
    · change c.off + 0 + i = off + 0 + (c.off - off + i)
      omega
    · change c.buf + i = buf + (c.off - off + i)
      omega
  · intro i hi
    change i < len at hi
    obtain ⟨r, hr, hin⟩ := hw.tiles.cover (x := off + i) (within_add.mpr hi)
    obtain ⟨c, hc, rfl⟩ := List.mem_map.mp hr
    have hsrc := hw.source c hc
    change c.off ≤ off + i ∧ off + i < c.off + c.len at hin
    refine ⟨c.job, List.mem_map_of_mem hc, off + i - c.off, ?_, ?_, ?_⟩
    · change off + i - c.off < c.len
      omega
    · change c.off + 0 + (off + i - c.off) = off + 0 + i
      omega
    · change c.buf + (off + i - c.off) = buf + i
      omega

theorem read_divides {b off n skip len buf : Nat} {cs : List ReadChunk}
    (hcs : readChunks off buf n (off + skip) len = some cs) (h : ReadSplit off n skip len buf cs)
    (hb : b ∣ splitSize) (hoff : b ∣ off) (hn : b ∣ n) :
    Divides b (Job.ofRead off n skip len buf) (Job.ofRead off n skip len buf).split := by
  have hchunk : ∀ k ∈ (Job.ofRead off n skip len buf).split, ∃ c ∈ cs, c.job = k ∧
      off ≤ c.off ∧ c.off + c.len ≤ off + n ∧ buf ≤ c.fill.buf ∧
      c.fill.buf + c.fill.tmpLen ≤ buf + len := by
    intro k hk
    have hk' : k ∈ ((readChunks off buf n (off + skip) len).getD []).map ReadChunk.job := hk
    rw [hcs, Option.getD_some] at hk'
    obtain ⟨c, hc, heq⟩ := List.mem_map.mp hk'
    have hdev := h.tiles.bounds (List.mem_map_of_mem (f := fun c => (c.off, c.len)) hc)
    have hmem := h.fills.bounds
      (List.mem_map_of_mem (f := fun c => (c.fill.buf, c.fill.tmpLen)) hc)
    exact ⟨c, hc, heq, hdev.1, hdev.2, hmem.1, hmem.2⟩
  refine ⟨?_, ?_, ?_, ?_, ?_, ?_, ?_⟩
  · intro k hk
    obtain ⟨c, _, rfl, _⟩ := hchunk k hk
    exact ⟨rfl, iff_of_false (Option.some_ne_none _) (Option.some_ne_none _)⟩
  · intro k hk
    obtain ⟨c, hc, rfl, _⟩ := hchunk k hk
    exact h.blocks b hb hoff hn c hc
  · intro k hk
    obtain ⟨c, hc, rfl, _⟩ := hchunk k hk
    exact h.inside c hc
  · intro k hk
    obtain ⟨c, _, rfl, hle, hend, _⟩ := hchunk k hk
    exact ⟨hle, hend⟩
  · intro k hk
    obtain ⟨c, _, rfl, _, _, hle, hend⟩ := hchunk k hk
    exact ⟨hle, hend⟩
  · intro k hk i hi
    obtain ⟨c, hc, rfl, _, _, hle, hend⟩ := hchunk k hk
    change i < c.fill.tmpLen at hi
    have hto := h.target c hc (by omega)
    refine ⟨c.fill.buf - buf + i, ?_, ?_, ?_⟩
    · change c.fill.buf - buf + i < len
      omega
    · change c.off + c.fill.tmpOff + i = off + skip + (c.fill.buf - buf + i)
      omega
    · change c.fill.buf + i = buf + (c.fill.buf - buf + i)
      omega
  · intro i hi
    change i < len at hi
    obtain ⟨r, hr, hin⟩ := h.fills.cover (x := buf + i) (within_add.mpr hi)
    obtain ⟨c, hc, rfl⟩ := List.mem_map.mp hr
    change c.fill.buf ≤ buf + i ∧ buf + i < c.fill.buf + c.fill.tmpLen at hin
    have hto := h.target c hc (by omega)
    have hmem : c.job ∈ (Job.ofRead off n skip len buf).split := by
      change c.job ∈ ((readChunks off buf n (off + skip) len).getD []).map ReadChunk.job
      rw [hcs, Option.getD_some]
      exact List.mem_map_of_mem hc
    refine ⟨c.job, hmem, buf + i - c.fill.buf, ?_, ?_, ?_⟩
    · change buf + i - c.fill.buf < c.fill.tmpLen
      omega
    · change c.off + c.fill.tmpOff + (buf + i - c.fill.buf) = off + skip + i
      omega
    · change c.fill.buf + (buf + i - c.fill.buf) = buf + i
      omega

end LockdepSpdk.Blk
