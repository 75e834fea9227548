import LockdepSpdk.Blk.Accounting
import LockdepSpdk.Blk.Guards
import LockdepSpdk.Blk.Returns

/-!
# What a synchronous call leaves behind

`write`, `read` and `read_random` as one copy between the device and the caller's
memory, whatever the order in which SPDK completes their commands.
-/

namespace LockdepSpdk.Blk

set_option autoImplicit false

open Function ByteRange Transition

theorem dvd_splitSize {b k : Nat} (hb : b = 2 ^ k) (hle : b ≤ splitSize) : b ∣ splitSize := by
  have hsplit : splitSize = 2 ^ 17 := rfl
  rw [hb, hsplit] at hle ⊢
  exact Nat.pow_dvd_pow 2 ((Nat.pow_le_pow_iff_right (by decide)).mp hle)

section
variable {cfg : Config} {pend : CtxPtr → List TaskPtr} {s : Sys} {off len buf : Nat}

theorem isValidIo_of (hsize : cfg.size < 2 ^ 63) (hoff : cfg.blockSize ∣ off)
    (hlen : cfg.blockSize ∣ len) (hpos : 0 < len) (hend : off + len ≤ cfg.size) :
    isValidIo cfg off len = true := by
  apply isValidIo_iff.mpr
  refine ⟨hoff, hlen, hpos, by omega, ?_⟩
  rwa [add64_of_lt (by omega)]

theorem Quiet.write_returns (h : Quiet pend s) (hpc : s.pc = .idle) (hframe : s.frame = none)
    (hb : cfg.blockSize ∣ splitSize) (hdepth : 0 < cfg.maxQueueDepth) (hsize : cfg.size < 2 ^ 63)
    (hoff : cfg.blockSize ∣ off) (hlen : cfg.blockSize ∣ len) (hpos : 0 < len)
    (hend : off + len ≤ cfg.size) (hlt : (writeChunks off len buf).length < 2 ^ 31) :
    ∃ s', write cfg s off len buf = .ok s' ∧ Returns cfg
      (Returned cfg pend (blit s.disk off len fun i => s.mem (buf + i)) s.mem) s' := by
  have hsplit : splitSize = 131072 := rfl
  have hchunks : WriteSplit off len buf (writeChunks off len buf) := writeChunks_spec (by omega)
  have hcount := hchunks.count
  obtain ⟨ps, s1, hs1, hext⟩ :=
    write_ok h hpc hframe (isValidIo_of hsize hoff hlen hpos hend) hlt
  have hps := hext.length_eq
  rw [List.length_map] at hps
  have hne : ps ≠ [] := by
    intro hnil
    rw [hnil, hcount, hsplit, List.length_nil] at hps
    omega
  obtain ⟨s', hs', hbegun⟩ := hext.begun (h.locals s.fresh) hne (by omega) cfg
  have hjob : Begun cfg pend ps (Job.ofWrite off len buf).split s s' := { hbegun with }
  exact ⟨s', hs1.trans hs', hjob.returns_one hdepth (Or.inl ⟨rfl, rfl⟩) ⟨hoff, hlen⟩
    ⟨Nat.le_of_eq (Nat.zero_add len), Nat.zero_le _⟩ (write_divides (by omega) hb hoff hlen)⟩

theorem Quiet.readSync_begun {n origOff origLen : Nat} {cs : List ReadChunk} (h : Quiet pend s)
    (hpc : s.pc = .idle) (hcs : readChunks off buf n origOff origLen = some cs) (hne : cs ≠ [])
    (hlt : cs.length < 2 ^ 31) (cfg : Config) :
    ∃ s' ps, readSync s off n buf origOff origLen = .ok s' ∧
      Begun cfg pend ps (cs.map ReadChunk.job) s s' := by
  obtain ⟨ps, s1, hs1, hext⟩ := readSync_ok h hpc hcs hlt
  have hps := hext.length_eq
  rw [List.length_map] at hps
  have hpos := List.length_pos_of_ne_nil hne
  obtain ⟨s', hs', hbegun⟩ := hext.begun (h.locals (s.fresh + 1))
    (List.ne_nil_of_length_pos (by omega)) (by omega) cfg
  exact ⟨s', ps, hs1.trans hs', { hbegun with }⟩

theorem Quiet.readSync_returns {n origOff origLen : Nat} (h : Quiet pend s) (hpc : s.pc = .idle)
    (hb : cfg.blockSize ∣ splitSize) (hdepth : 0 < cfg.maxQueueDepth)
    (hoff : cfg.blockSize ∣ off) (hn : cfg.blockSize ∣ n) (hpos : 0 < n) (hend : off + n < 2 ^ 63)
    (hle : off ≤ origOff) (hskip : origOff = off ∨ origOff - off < min n splitSize)
    (horig : origOff + origLen ≤ off + n) (hhead : origOff - off ≤ dataBufferSize)
    (hlt : (n + (splitSize - 1)) / splitSize < 2 ^ 31) :
    ∃ s', readSync s off n buf origOff origLen = .ok s' ∧ Returns cfg
      (Returned cfg pend s.disk (blit s.mem buf origLen fun i => s.disk (origOff + i))) s' := by
  obtain ⟨cs, hcs, hspec⟩ : ∃ cs, readChunks off buf n origOff origLen = some cs ∧
      ReadSplit off n (origOff - off) origLen buf cs := readChunks_spec hend hle hskip horig
  obtain ⟨c, hc, _⟩ := hspec.first hpos
  obtain ⟨s', ps, hs', hbegun⟩ := h.readSync_begun hpc hcs (List.ne_nil_of_mem hc)
    (by rw [hspec.count]; exact hlt) cfg
  have horigOff : off + (origOff - off) = origOff := by omega
  have hcs' : readChunks off buf n (off + (origOff - off)) origLen = some cs := by
    rw [horigOff]
    exact hcs
  have hjobs : (Job.ofRead off n (origOff - off) origLen buf).split = cs.map ReadChunk.job := by
    change ((readChunks off buf n (off + (origOff - off)) origLen).getD []).map ReadChunk.job = _
    rw [hcs', Option.getD_some]
  rw [← hjobs] at hbegun
  have hret := hbegun.returns_one hdepth (Or.inr ⟨rfl, _, rfl⟩) ⟨hoff, hn⟩
    ⟨by change origOff - off + origLen ≤ n; omega, hhead⟩ (read_divides hcs' hspec hb hoff hn)
  refine ⟨s', hs', hret.mono ?_⟩
  intro t ht
  refine ⟨ht.pc, ht.core, ht.disk, ht.mem.trans ?_, ht.ret⟩
  change blit s.mem buf origLen (fun i => s.disk (off + (origOff - off) + i)) = _
  rw [horigOff]

theorem Quiet.read_returns (h : Quiet pend s) (hpc : s.pc = .idle)
    (hb : cfg.blockSize ∣ splitSize) (hdepth : 0 < cfg.maxQueueDepth) (hsize : cfg.size < 2 ^ 63)
    (hoff : cfg.blockSize ∣ off) (hlen : cfg.blockSize ∣ len) (hpos : 0 < len)
    (hend : off + len ≤ cfg.size) (hlt : (len + (splitSize - 1)) / splitSize < 2 ^ 31) :
    ∃ s', read cfg s off len buf = .ok s' ∧ Returns cfg
      (Returned cfg pend s.disk (blit s.mem buf len fun i => s.disk (off + i))) s' := by
  obtain ⟨s', hs', hret⟩ := h.readSync_returns hpc hb hdepth hoff hlen hpos
    (by omega) (Nat.le_refl off) (Or.inl rfl) (Nat.le_refl (off + len)) (by omega) hlt
  refine ⟨s', ?_, hret⟩
  unfold read
  rw [if_pos (isValidIo_of hsize hoff hlen hpos hend)]
  exact hs'

theorem Reached.quiet (h : Reached cfg s) (hidle : s.pc = .idle) :
    ∃ pend, Quiet pend s ∧ s.frame = none := by
  obtain ⟨pend, rest, hcore, _⟩ := h.inv
  obtain ⟨hin, rfl, hframe⟩ := hcore.idle hidle
  refine ⟨pend, hcore.quiet ?_, hframe⟩
  rw [hin]
  exact rfl

/-- What is written is read back, and nothing else changes. -/
theorem write_read_roundtrip {k : Nat} (hs : Reached cfg s) (hidle : s.pc = .idle)
    (hbs : cfg.blockSize = 2 ^ k) (hle : cfg.blockSize ≤ 131072) (hdepth : 1 ≤ cfg.maxQueueDepth)
    (hsize : cfg.size < 2 ^ 63) (hoff : cfg.blockSize ∣ off) (hlen : cfg.blockSize ∣ len)
    (hpos : 0 < len) (hend : off + len ≤ cfg.size) (hlt : len < 2 ^ 47) (buf buf2 : Nat) :
    ∃ s1, write cfg s off len buf = .ok s1 ∧ Returns cfg (fun t =>
      (∀ i, i < len → t.disk (off + i) = s.mem (buf + i)) ∧
      (∀ x, ¬ Within off len x → t.disk x = s.disk x) ∧
      ∃ t1, read cfg t off len buf2 = .ok t1 ∧ Returns cfg (fun u => u.ret = 0 ∧
        (∀ i, i < len → u.mem (buf2 + i) = s.mem (buf + i)) ∧
        ∀ x, ¬ Within buf2 len x → u.mem x = t.mem x) t1) s1 := by
  have hsplit : splitSize = 131072 := rfl
  have hb : cfg.blockSize ∣ splitSize := dvd_splitSize hbs hle
  have hcount : (len + (splitSize - 1)) / splitSize < 2 ^ 31 := by
    rw [hsplit]
    omega
  obtain ⟨pend, hquiet, hframe⟩ := hs.quiet hidle
  have hchunks : WriteSplit off len buf (writeChunks off len buf) := writeChunks_spec (by omega)
  obtain ⟨s1, hs1, hwrite⟩ := hquiet.write_returns hidle hframe hb hdepth hsize hoff hlen
    hpos hend (by rw [hchunks.count]; exact hcount)
  refine ⟨s1, hs1, hwrite.mono fun t ht => ?_⟩
  have hwritten : ∀ i, i < len → t.disk (off + i) = s.mem (buf + i) := by
    intro i hi
    rw [ht.disk, blit_within s.disk _ hi]
  refine ⟨hwritten, ?_, ?_⟩
  · intro x hx
    rw [ht.disk, blit_outside s.disk _ hx]
  · obtain ⟨hquiet', _⟩ := ht.quiet
    obtain ⟨t1, ht1, hread⟩ := hquiet'.read_returns ht.pc hb hdepth hsize
      hoff hlen hpos hend hcount
    refine ⟨t1, ht1, hread.mono fun u hu => ⟨hu.ret, ?_, ?_⟩⟩
    · intro i hi
      rw [hu.mem, blit_within t.mem _ hi]
      exact hwritten i hi
    · intro x hx
      rw [hu.mem, blit_outside t.mem _ hx]

/-- Twice the pool, in a queue for two commands. -/
theorem write_read_roundtrip_16M :
    ∃ s1, write ⟨4096, 2 ^ 40, 2⟩ started 8192 (2 ^ 24) 7 = .ok s1 ∧
      Returns ⟨4096, 2 ^ 40, 2⟩ (fun t =>
        (∀ i, i < 2 ^ 24 → t.disk (8192 + i) = started.mem (7 + i)) ∧
        (∀ x, ¬ Within 8192 (2 ^ 24) x → t.disk x = started.disk x) ∧
        ∃ t1, read ⟨4096, 2 ^ 40, 2⟩ t 8192 (2 ^ 24) 100 = .ok t1 ∧
          Returns ⟨4096, 2 ^ 40, 2⟩ (fun u => u.ret = 0 ∧
            (∀ i, i < 2 ^ 24 → u.mem (100 + i) = started.mem (7 + i)) ∧
            ∀ x, ¬ Within 100 (2 ^ 24) x → u.mem x = t.mem x) t1) s1 :=
  write_read_roundtrip (k := 12) (.start started_initial) rfl rfl (by decide) (by decide) (by decide)
    (by decide) (by decide) (by decide) (by decide) (by decide) 7 100

end

end LockdepSpdk.Blk
