import Beryllium.Audio.Aec
import Mathlib.Algebra.BigOperators.Group.List.Basic

/-!
# Times of the echo reference

The writer pushes the samples of a packet and then its record; the reader may come between
the two. The difference that the reader keeps is the number of bytes read minus the bytes of
the records it has consumed, and its times are right, as long as every read finds the record
of its first byte, and the record of the byte before it was there when that byte was read.

## Main results

* `timestamps_aligned_iff` — the difference and the times are right exactly if the records
  were there in time.
-/

namespace Beryllium.Audio

open List

/-! ## Steps -/

/-- A step of the writer or of the reader. -/
inductive Event where
  | samples (buffer : List UInt8) (timestamp : Timespec)
  | info
  | read (n : ℕ)
  deriving DecidableEq, Repr

/-- What has happened since the last flush: the packets whose samples were pushed, the number
of them whose records were pushed, the number of records at the last read, and the bytes
read. -/
structure History where
  packets : List AecInfo := []
  infos : ℕ := 0
  seen : ℕ := 0
  read : ℕ := 0
  deriving DecidableEq, Repr

namespace History

/-- Where a packet begins in the stream of samples. -/
def start (h : History) (k : ℕ) : ℕ := ((h.packets.take k).map AecInfo.bytes).sum

/-- A step is possible: the writer takes its steps in turns and pushes no empty packet, and a
read is full. -/
def Enabled (h : History) : Event → Prop
  | .samples buffer _ => h.infos = h.packets.length ∧ buffer ≠ []
  | .info => h.infos < h.packets.length
  | .read n => h.read + n ≤ h.start h.packets.length

def after (h : History) : Event → History
  | .samples buffer timestamp =>
      { h with packets := h.packets ++ [⟨timestamp, buffer.length, h.packets.length⟩] }
  | .info => { h with infos := h.infos + 1 }
  | .read n => { h with seen := h.infos, read := h.read + n }

/-- The stamp is that of the first byte of the next read: its record is the one of the packet
with that byte, its offset the place of the byte in that packet. -/
def Stamps (h : History) (s : Stamp) : Prop :=
  ∃ k, h.packets[k]? = some s.info ∧ h.start k + s.offset = h.read ∧ s.offset < s.info.bytes

/-- A read of `n` bytes comes in time: the record of its first byte was pushed, and that of the
byte before it already when that byte was read. If only the second of these fails, the time is
that of a packet without time. -/
def Timely (h : History) (n : ℕ) : Prop :=
  n = 0 ∨ (h.read ≤ h.start h.seen ∧ h.read < h.start h.infos) ∨
    (h.start h.seen < h.read ∧ h.seen < h.infos ∧
      ∀ info, h.packets[h.seen]? = some info → timespecToUsec info.timestamp = 0)

end History

def Aec.step (a : Aec) (h : History) : Event → Aec × Option Stamp
  | .samples buffer _ => (writeSamples a buffer, none)
  | .info =>
      match h.packets[h.infos]? with
      | some info => (writeInfo a info, none)
      | none => (a, none)
  | .read n => (getReferenceSamples a n).getD (a, none)

def Possible (h : History) : List Event → Prop
  | [] => True
  | e :: es => h.Enabled e ∧ Possible (h.after e) es

/-- The difference is the number of bytes read minus the bytes of the records consumed. -/
def Balanced (a : Aec) (h : History) : Prop :=
  a.readWriteDiffBytes = h.read - h.start (h.infos - a.tsFifo.length)

/-- A time that is reported is right, unless it is zero or nothing was read. -/
def Reports (clock : Clock) (a : Aec) (h : History) : Event → Prop
  | .read n => 0 < n → ∀ s ∈ (a.step h (.read n)).2, s.time clock ≠ 0 → h.Stamps s
  | .samples _ _ | .info => True

/-- The difference and the times are right throughout a sequence of steps. -/
def Aligned (clock : Clock) (a : Aec) (h : History) : List Event → Prop
  | [] => Balanced a h
  | e :: es =>
      Balanced a h ∧ Reports clock a h e ∧ Aligned clock (a.step h e).1 (h.after e) es

def play (a : Aec) (h : History) : List Event → Aec × History
  | [] => (a, h)
  | e :: es => play (a.step h e).1 (h.after e) es

def AllTimely (h : History) : List Event → Prop
  | [] => True
  | e :: es => (∀ n, e = .read n → h.Timely n) ∧ AllTimely (h.after e) es

/-! ## Places in the stream -/

section Start
variable {h : History} {k j : ℕ} {info : AecInfo}

theorem History.start_succ (hk : h.packets[k]? = some info) :
    h.start (k + 1) = h.start k + info.bytes := by
  rw [History.start, take_add_one, hk]
  simp [History.start]

theorem History.start_mono (hkj : k ≤ j) : h.start k ≤ h.start j := by
  unfold History.start
  rw [← Nat.min_eq_left hkj, ← take_take, map_take]
  have hsplit := sum_take_add_sum_drop ((h.packets.take j).map AecInfo.bytes) k
  omega

/-- The packets of a history are numbered, and none is empty. -/
structure History.Valid (h : History) : Prop where
  numbered : ∀ (k : ℕ) (info : AecInfo), h.packets[k]? = some info →
    info.packet = k ∧ 0 < info.bytes
  seen_le : h.seen ≤ h.infos
  infos_le : h.infos ≤ h.packets.length

theorem History.start_lt (hv : h.Valid) (hkj : k < j) (hj : j ≤ h.packets.length) :
    h.start k < h.start j := by
  have hk : h.packets[k]? = some h.packets[k] := List.getElem?_eq_getElem (by omega)
  have hpos := (hv.numbered k _ hk).2
  have hsucc := History.start_succ hk
  have hmono : h.start (k + 1) ≤ h.start j := History.start_mono hkj
  omega

theorem History.Valid.after (hv : h.Valid) {e : Event} (he : h.Enabled e) : (h.after e).Valid := by
  cases e with
  | samples buffer timestamp =>
    refine ⟨?_, hv.seen_le, ?_⟩
    · intro k info hk
      simp only [History.after, List.getElem?_append] at hk
      split at hk
      · exact hv.numbered k info hk
      · next hlt =>
          obtain ⟨hzero, rfl⟩ := List.getElem?_eq_some_iff.mp hk
          simp only [length_singleton] at hzero
          have hpos := length_pos_iff.mpr he.2
          simp only [getElem_singleton]
          omega
    · have := hv.infos_le
      simp only [History.after, length_append]
      omega
  | info =>
    have he : h.infos < h.packets.length := he
    exact ⟨hv.numbered, Nat.le_succ_of_le hv.seen_le, he⟩
  | read n => exact ⟨hv.numbered, Nat.le_refl _, hv.infos_le⟩

theorem History.start_samples (hk : k ≤ h.packets.length) (buffer : List UInt8)
    (timestamp : Timespec) : (h.after (.samples buffer timestamp)).start k = h.start k := by
  simp only [History.start, History.after, take_append_of_le_length hk]

end Start

/-! ## The reader -/

/-- The reader has consumed `c` records, and the last one is that of the packet it is in. It
has not consumed a record too many, and stopped only where it had to. -/
structure Caught (a : Aec) (h : History) (c bound : ℕ) : Prop where
  queue : a.tsFifo = (h.packets.take h.infos).drop c
  le : c ≤ bound
  diff : a.readWriteDiffBytes = h.read - h.start c
  stopped : h.read ≤ h.start c ∨ c = bound
  last : h.read < h.start c →
    ∃ k, c = k + 1 ∧ h.packets[k]? = some a.lastSpkInfo ∧ h.start k ≤ h.read

section Reader
variable {a : Aec} {h : History} {c n : ℕ} {info : AecInfo} {e : Event}

theorem tsFifo_length (hv : h.Valid) (hc : Caught a h c h.seen) :
    h.infos - a.tsFifo.length = c := by
  have hseen := hv.seen_le
  have hinfos := hv.infos_le
  have hle := hc.le
  rw [hc.queue, length_drop, length_take]
  omega

theorem Caught.balanced (hv : h.Valid) (hc : Caught a h c h.seen) : Balanced a h := by
  unfold Balanced
  rw [tsFifo_length hv hc, hc.diff]

theorem Caught.tsFifo_eq_nil (hc : Caught a h c h.seen) (hv : h.Valid) (hnil : a.tsFifo = []) :
    c = h.infos := by
  have := tsFifo_length hv hc
  rw [hnil, length_nil] at this
  omega

theorem Caught.tsFifo_eq_cons {rest : List AecInfo} (hc : Caught a h c h.seen) (hv : h.Valid)
    (hcons : a.tsFifo = info :: rest) : c < h.infos ∧ h.packets[c]? = some info ∧
      rest = (h.packets.take h.infos).drop (c + 1) := by
  have hlen := tsFifo_length hv hc
  have hinfos := hv.infos_le
  have hqueue := hc.queue
  rw [hcons] at hlen hqueue
  rw [length_cons] at hlen
  have hlt : c < h.infos := by
    have hle := hc.le
    have hseen := hv.seen_le
    by_contra hge
    have : (h.packets.take h.infos).drop c = [] :=
      drop_eq_nil_of_le (by rw [length_take]; omega)
    rw [this] at hqueue
    cases hqueue
  have htake : c < (h.packets.take h.infos).length := by
    rw [length_take]
    omega
  rw [drop_eq_getElem_cons htake] at hqueue
  obtain ⟨hinfo, hrest⟩ := List.cons.inj hqueue
  refine ⟨hlt, ?_, hrest⟩
  rw [hinfo, getElem_take]
  exact List.getElem?_eq_getElem _

/-- The loop goes on to the packet of the next byte, or to the last record. -/
theorem fastForward_caught (hinfos : h.infos ≤ h.packets.length) :
    ∀ {q : List AecInfo} {c : ℕ} {diff : ℤ} {last : AecInfo},
      q = (h.packets.take h.infos).drop c → c ≤ h.infos → diff = h.read - h.start c →
      (h.read < h.start c → ∃ k, c = k + 1 ∧ h.packets[k]? = some last ∧ h.start k ≤ h.read) →
      ∃ c', ∀ spk, Caught ⟨spk, (fastForward q diff last).1, (fastForward q diff last).2.2,
        (fastForward q diff last).2.1⟩ h c' h.infos := by
  intro q
  induction q with
  | nil =>
    intro c diff last hq hc hdiff hlast
    have hlen := congrArg List.length hq
    rw [length_nil, length_drop, length_take] at hlen
    exact ⟨c, fun _ => ⟨hq, hc, hdiff, .inr (by omega), hlast⟩⟩
  | cons info rest ih =>
    intro c diff last hq hc hdiff hlast
    have hlen := congrArg List.length hq
    rw [length_cons, length_drop, length_take] at hlen
    unfold fastForward
    by_cases hpos : diff > 0
    · rw [if_pos hpos]
      have htake : c < (h.packets.take h.infos).length := by
        rw [length_take]
        omega
      rw [drop_eq_getElem_cons htake] at hq
      obtain ⟨hinfo, hrest⟩ := List.cons.inj hq
      have hget : h.packets[c]? = some info := by
        rw [hinfo, getElem_take]
        exact List.getElem?_eq_getElem _
      have hsucc := History.start_succ hget
      refine ih hrest (by omega) (by omega) fun _ => ⟨c, rfl, hget, by omega⟩
    · rw [if_neg hpos]
      exact ⟨c, fun _ => ⟨hq, hc, hdiff, .inl (by omega), hlast⟩⟩

theorem getSpkTimestamp_caught {a₁ : Aec} {s : Stamp} {k : ℕ} (hv : h.Valid)
    (hfirst : firstStamp a = some (a₁, s))
    (hqueue : a₁.tsFifo = (h.packets.take h.infos).drop (k + 1)) (hle : k < h.infos)
    (hdiff : a₁.readWriteDiffBytes = h.read - h.start (k + 1))
    (hget : h.packets[k]? = some a₁.lastSpkInfo) (hks : h.start k ≤ h.read) :
    (getSpkTimestamp a n).2 = some s ∧
      ∃ c', Caught (getSpkTimestamp a n).1 (h.after (.read n)) c' h.infos := by
  unfold getSpkTimestamp
  rw [hfirst]
  refine ⟨rfl, ?_⟩
  obtain ⟨c', hc'⟩ := @fastForward_caught (h.after (.read n)) hv.infos_le _ (k + 1)
    (a₁.readWriteDiffBytes + n) a₁.lastSpkInfo hqueue hle
    (by simp only [hdiff, History.after, History.start]; omega)
    (fun _ => ⟨k, rfl, hget, Nat.le_add_right_of_le hks⟩)
  exact ⟨c', hc' _⟩

theorem read_behind (hv : h.Valid) (hc : Caught a h c h.seen) (hlt : h.read < h.start c) (n : ℕ) :
    ∃ s, (getSpkTimestamp a n).2 = some s ∧ h.Stamps s ∧
      ∃ c', Caught (getSpkTimestamp a n).1 (h.after (.read n)) c' h.infos := by
  obtain ⟨k, rfl, hget, hks⟩ := hc.last hlt
  have hsucc := History.start_succ hget
  have hdiff := hc.diff
  have hseen := hv.seen_le
  have hle := hc.le
  have hfirst : firstStamp a = some (a, ⟨a.lastSpkInfo, h.read - h.start k⟩) := by
    have hoff : ((a.lastSpkInfo.bytes : ℤ) + a.readWriteDiffBytes).toNat = h.read - h.start k := by
      omega
    unfold firstStamp
    rw [if_pos (by omega), hoff]
  obtain ⟨hstamp, hcaught⟩ :=
    getSpkTimestamp_caught (n := n) hv hfirst hc.queue (by omega) hdiff hget hks
  refine ⟨_, hstamp, ⟨k, hget, ?_, ?_⟩, hcaught⟩
  · simp only
    omega
  · simp only
    omega

/-- All that was pushed has been consumed, and the read finds no record. -/
theorem read_without (hc : Caught a h c h.seen) (hle : h.start c ≤ h.read)
    (hall : c = h.infos) (n : ℕ) : getSpkTimestamp a n = (a, none) := by
  have hdiff := hc.diff
  have hnil : a.tsFifo = [] := by
    rw [hc.queue, hall]
    exact drop_eq_nil_of_le (by rw [length_take]; omega)
  have hfirst : firstStamp a = none := by
    unfold firstStamp
    rw [if_neg (by omega), hnil]
  unfold getSpkTimestamp
  rw [hfirst]

/-- The read takes the next record, as if its first byte were the first one of that packet. -/
theorem read_next (hv : h.Valid) (hc : Caught a h c h.seen) (hle : h.start c ≤ h.read)
    (hmore : c < h.infos) (n : ℕ) :
    ∃ info, h.packets[c]? = some info ∧ (getSpkTimestamp a n).2 = some ⟨info, 0⟩ ∧
      ∃ c', Caught (getSpkTimestamp a n).1 (h.after (.read n)) c' h.infos := by
  have hdiff := hc.diff
  cases hcons : a.tsFifo with
  | nil =>
    have := hc.tsFifo_eq_nil hv hcons
    omega
  | cons info rest =>
    obtain ⟨-, hget, hrest⟩ := hc.tsFifo_eq_cons hv hcons
    have hsucc := History.start_succ hget
    have hfirst : firstStamp a = some ({ a with
        tsFifo := rest
        lastSpkInfo := info
        readWriteDiffBytes := a.readWriteDiffBytes - info.bytes }, ⟨info, 0⟩) := by
      unfold firstStamp
      rw [if_neg (by omega), hcons]
    obtain ⟨hstamp, hcaught⟩ :=
      getSpkTimestamp_caught (n := n) hv hfirst hrest hmore (by simp only; omega) hget hle
    exact ⟨info, hget, hstamp, hcaught⟩

theorem read_timely (clock : Clock) (hv : h.Valid) (hc : Caught a h c h.seen)
    (ht : h.Timely n) :
    (∃ c', Caught (getSpkTimestamp a n).1 (h.after (.read n)) c' h.infos) ∧
      (0 < n → ∀ s ∈ (getSpkTimestamp a n).2, s.time clock ≠ 0 → h.Stamps s) := by
  have hseen := hv.seen_le
  have hinfos := hv.infos_le
  by_cases hbehind : h.read < h.start c
  · obtain ⟨s, hs, hstamps, hcaught⟩ := read_behind hv hc hbehind n
    refine ⟨hcaught, fun _ s' hs' _ => ?_⟩
    rw [hs] at hs'
    cases hs'
    exact hstamps
  have hle : h.start c ≤ h.read := by omega
  have hcb := hc.le
  have hmono : h.start c ≤ h.start h.seen := History.start_mono hcb
  by_cases hall : c = h.infos
  · -- nothing was read, or the record of the first byte would be missing
    have hzero : n = 0 := by
      obtain hzero | ⟨_, hlt⟩ | ⟨_, hlt, _⟩ := ht
      · exact hzero
      · rw [← hall] at hlt
        omega
      · omega
    rw [read_without hc hle hall, hzero]
    refine ⟨⟨c, ?_⟩, fun h₀ => absurd h₀ (by omega)⟩
    exact ⟨hc.queue, by omega, hc.diff, .inr hall, hc.last⟩
  · obtain ⟨info, hget, hs, hcaught⟩ := read_next hv hc hle (by omega) n
    refine ⟨hcaught, fun hn s' hs' htime => ?_⟩
    rw [hs] at hs'
    cases hs'
    have hpos := (hv.numbered c info hget).2
    obtain hzero | ⟨hread, _⟩ | ⟨hlt, _, hnull⟩ := ht
    · omega
    · have hstart : h.start c = h.read := by
        obtain hstop | hstop := hc.stopped
        · omega
        · rw [hstop] at hle ⊢
          omega
      exact ⟨c, hget, hstart, hpos⟩
    · have hc₀ : c = h.seen := hc.stopped.resolve_left (by omega)
      rw [hc₀] at hget
      refine absurd ?_ htime
      simp only [Stamp.time, clock.usecs_zero, hnull info hget]

/-- A read that does not come in time spoils the difference or reports a wrong time. -/
theorem read_late (clock : Clock) (hv : h.Valid) (hc : Caught a h c h.seen)
    (ht : ¬h.Timely n) : ¬Balanced (getSpkTimestamp a n).1 (h.after (.read n)) ∨
      ¬(0 < n → ∀ s ∈ (getSpkTimestamp a n).2, s.time clock ≠ 0 → h.Stamps s) := by
  have hseen := hv.seen_le
  have hinfos := hv.infos_le
  have hcb := hc.le
  have hmono : h.start c ≤ h.start h.seen := History.start_mono hcb
  have hmono' : h.start h.seen ≤ h.start h.infos := History.start_mono hseen
  simp only [History.Timely, not_or, not_and] at ht
  obtain ⟨hn, hfirst, hsecond⟩ := ht
  have hle : h.start c ≤ h.read := by
    by_contra hlt
    exact hfirst (by omega) (by omega)
  by_cases hall : c = h.infos
  · left
    rw [read_without hc hle hall]
    have hbal := hc.balanced hv
    unfold Balanced at hbal ⊢
    simp only [History.after, History.start] at hbal ⊢
    omega
  · right
    obtain ⟨info, hget, hs, -⟩ := read_next hv hc hle (by omega) n
    have hstrict : h.start c < h.start h.infos := History.start_lt hv (by omega) hinfos
    have hc₀ : c = h.seen := by
      refine hc.stopped.resolve_left fun hstop => ?_
      exact hfirst (by omega) (by omega)
    have hlt : h.start h.seen < h.read := by
      rw [← hc₀]
      by_contra hge
      exact hfirst (by omega) (by omega)
    intro hright
    have htime : Stamp.time clock ⟨info, 0⟩ ≠ 0 := by
      intro hzero
      refine hsecond hlt (by omega) fun info' hinfo' => ?_
      rw [← hc₀, hget] at hinfo'
      cases hinfo'
      simpa only [Stamp.time, clock.usecs_zero, Nat.add_zero] using hzero
    obtain ⟨k, hk, hplace, -⟩ := hright (by omega) _ hs htime
    -- the number of the packet gives it away
    have hnum : k = c := (hv.numbered k info hk).1.symm.trans (hv.numbered c info hget).1
    have hplace : h.start c + 0 = h.read := hnum ▸ hplace
    rw [← hc₀] at hlt
    omega

/-- The samples that were pushed and not yet read are in the FIFO. -/
def Filled (a : Aec) (h : History) : Prop :=
  a.spkFifo.length + h.read = h.start h.packets.length

theorem spkFifo_getSpkTimestamp (a : Aec) (n : ℕ) :
    (getSpkTimestamp a n).1.spkFifo = a.spkFifo := by
  have hfirst : ∀ a₁ s, firstStamp a = some (a₁, s) → a₁.spkFifo = a.spkFifo := by
    intro a₁ s hs
    unfold firstStamp at hs
    split at hs
    · cases hs
      rfl
    · split at hs
      · cases hs
      · cases hs
        rfl
  unfold getSpkTimestamp
  split
  · rfl
  · next a₁ s hs => exact hfirst a₁ s hs

theorem step_read (hf : Filled a h) (he : h.Enabled (.read n)) :
    a.step h (.read n) = getSpkTimestamp { a with spkFifo := a.spkFifo.drop n } n := by
  have he : h.read + n ≤ h.start h.packets.length := he
  unfold Filled at hf
  have hfull : ¬a.spkFifo.length < n := by omega
  simp only [Aec.step, getReferenceSamples, if_neg hfull, Option.getD_some]

theorem Filled.step (hf : Filled a h) (he : h.Enabled e) :
    Filled (a.step h e).1 (h.after e) := by
  cases e with
  | samples buffer timestamp =>
    have hlen : (h.packets ++ [(⟨timestamp, buffer.length, h.packets.length⟩ : AecInfo)]).length =
        h.packets.length + 1 := by simp
    have hget : (h.after (.samples buffer timestamp)).packets[h.packets.length]? =
        some ⟨timestamp, buffer.length, h.packets.length⟩ := by
      simp [History.after]
    have hsucc := History.start_succ hget
    rw [History.start_samples (Nat.le_refl _)] at hsucc
    unfold Filled at hf ⊢
    simp only [Aec.step, writeSamples, length_append]
    rw [show (h.after (.samples buffer timestamp)).packets.length = h.packets.length + 1 from hlen,
      hsucc, ← hf]
    simp only [History.after]
    omega
  | info =>
    have he : h.infos < h.packets.length := he
    simp only [Aec.step, List.getElem?_eq_getElem he]
    exact hf
  | read n =>
    have he' : h.read + n ≤ h.start h.packets.length := he
    unfold Filled at hf ⊢
    rw [step_read hf he, spkFifo_getSpkTimestamp]
    simp only [History.after, History.start, length_drop] at hf he' ⊢
    omega

theorem Caught.write (hv : h.Valid) (hc : Caught a h c h.seen) (he : h.Enabled e)
    (hw : ∀ n, e ≠ .read n) : Caught (a.step h e).1 (h.after e) c h.seen := by
  have hseen := hv.seen_le
  have hinfos := hv.infos_le
  have hle := hc.le
  cases e with
  | read n => exact absurd rfl (hw n)
  | samples buffer timestamp =>
    have hstart : ∀ k ≤ h.packets.length, (h.after (.samples buffer timestamp)).start k =
        h.start k := fun k hk => History.start_samples hk buffer timestamp
    have hsc := hstart c (by omega)
    refine ⟨?_, hle, ?_, ?_, ?_⟩
    · have := hc.queue
      simp only [Aec.step, writeSamples, History.after]
      rw [take_append_of_le_length hinfos]
      exact this
    · rw [hsc]
      exact hc.diff
    · rw [hsc]
      exact hc.stopped
    · rw [hsc]
      intro hlt
      obtain ⟨k, hk, hget, hks⟩ := hc.last hlt
      have hklt := (List.getElem?_eq_some_iff.mp hget).1
      refine ⟨k, hk, ?_, ?_⟩
      · simp only [History.after]
        rw [List.getElem?_append_left hklt]
        exact hget
      · rw [hstart k (by omega)]
        exact hks
  | info =>
    have he : h.infos < h.packets.length := he
    simp only [Aec.step, List.getElem?_eq_getElem he]
    refine ⟨?_, hle, hc.diff, hc.stopped, hc.last⟩
    simp only [writeInfo, History.after]
    rw [hc.queue, take_add_one, List.getElem?_eq_getElem he, drop_append_of_le_length]
    · rfl
    · rw [length_take]
      omega

theorem Caught.setSpk (hc : Caught a h c h.seen) (spk : List UInt8) :
    Caught { a with spkFifo := spk } h c h.seen :=
  ⟨hc.queue, hc.le, hc.diff, hc.stopped, hc.last⟩

theorem Aligned.head {clock : Clock} {es : List Event} (hal : Aligned clock a h es) :
    Balanced a h := by
  cases es with
  | nil => exact hal
  | cons e es => exact hal.1

theorem Aligned.play {clock : Clock} {es : List Event} (hal : Aligned clock a h es) :
    Balanced (Audio.play a h es).1 (Audio.play a h es).2 := by
  induction es generalizing a h with
  | nil => exact hal
  | cons e es ih => exact ih hal.2.2

theorem aligned_iff_allTimely (clock : Clock) (es : List Event) :
    ∀ {a : Aec} {h : History} {c : ℕ}, h.Valid → Filled a h → Caught a h c h.seen →
      Possible h es → (Aligned clock a h es ↔ AllTimely h es) := by
  induction es with
  | nil =>
    intro a h c hv _ hc _
    exact ⟨fun _ => trivial, fun _ => hc.balanced hv⟩
  | cons e es ih =>
    intro a h c hv hf hc hp
    obtain ⟨he, hp⟩ := hp
    have hv' := hv.after he
    have hf' := hf.step he
    by_cases hread : ∃ n, e = .read n
    · obtain ⟨n, rfl⟩ := hread
      have hstep := step_read hf he
      have hc₀ := hc.setSpk (a.spkFifo.drop n)
      by_cases ht : h.Timely n
      · obtain ⟨⟨c', hc'⟩, hreports⟩ := read_timely clock hv hc₀ ht
        rw [← hstep] at hc' hreports
        have hiff := ih hv' hf' hc' hp
        constructor
        · rintro ⟨-, -, hal⟩
          refine ⟨fun n' hn' => ?_, hiff.mp hal⟩
          cases hn'
          exact ht
        · rintro ⟨-, hall⟩
          exact ⟨hc.balanced hv, hreports, hiff.mpr hall⟩
      · have hlate := read_late clock hv hc₀ ht
        rw [← hstep] at hlate
        constructor
        · rintro ⟨-, hreports, hal⟩
          obtain hbal | hrep := hlate
          · exact absurd (hal.head) hbal
          · exact absurd hreports hrep
        · rintro ⟨htimely, -⟩
          exact absurd (htimely n rfl) ht
    · have hw : ∀ n, e ≠ .read n := fun n hn => hread ⟨n, hn⟩
      have hseen : (h.after e).seen = h.seen := by
        cases e with
        | samples buffer timestamp => rfl
        | info => rfl
        | read n => exact absurd rfl (hw n)
      have hreports : Reports clock a h e := by
        cases e with
        | samples buffer timestamp => trivial
        | info => trivial
        | read n => exact absurd rfl (hw n)
      have hc' := hc.write hv he hw
      rw [← hseen] at hc'
      have hiff := ih hv' hf' hc' hp
      constructor
      · rintro ⟨-, -, hal⟩
        exact ⟨fun n hn => absurd hn (hw n), hiff.mp hal⟩
      · rintro ⟨-, hall⟩
        exact ⟨hc.balanced hv, hreports, hiff.mpr hall⟩

end Reader

/-- **The difference and the times are right exactly if the records were there in time.** For
every clock, every state that was just flushed, and every interleaving of the steps of the
writer with full reads: after every step the difference is the number of bytes read minus the
bytes of the records consumed, and every non-zero time is that of the packet with the first
byte of its read, at the offset of that byte, if and only if every read came in time. -/
theorem timestamps_aligned_iff (clock : Clock) (a : Aec) (es : List Event)
    (hp : Possible {} es) : Aligned clock (flushAecFifos a) {} es ↔ AllTimely {} es := by
  have hv : History.Valid {} := ⟨fun k info hk => by simp at hk, Nat.le_refl 0, Nat.le_refl 0⟩
  have hc : Caught (flushAecFifos a) {} 0 0 :=
    ⟨rfl, Nat.le_refl 0, rfl, .inr rfl, fun hlt => absurd hlt (Nat.lt_irrefl _)⟩
  exact aligned_iff_allTimely clock es hv rfl hc hp

theorem timestamps_aligned_pieces :
    Possible {} [.samples [1, 2, 3, 4] ⟨1, 0⟩, .info, .samples [5, 6] ⟨2, 0⟩, .info, .read 3,
      .read 2, .read 1] ∧
    Aligned ⟨fun n => 5 * n, rfl⟩ ⟨[], [], ⟨⟨0, 0⟩, 0, 0⟩, 0⟩ {}
      [.samples [1, 2, 3, 4] ⟨1, 0⟩, .info, .samples [5, 6] ⟨2, 0⟩, .info, .read 3, .read 2,
        .read 1] := by
  have hp : Possible {} [.samples [1, 2, 3, 4] ⟨1, 0⟩, .info, .samples [5, 6] ⟨2, 0⟩, .info,
      .read 3, .read 2, .read 1] := by
    simp [Possible, History.Enabled, History.after, History.start]
  refine ⟨hp, (timestamps_aligned_iff _ ⟨[], [], ⟨⟨0, 0⟩, 0, 0⟩, 0⟩ _ hp).mpr ?_⟩
  simp [AllTimely, History.Timely, History.after, History.start]

/-- A read between the two pushes of the first packet is not counted, and the first byte of the
second packet gets the time of the first packet. -/
theorem read_between_pushes :
    Possible {} [.samples [1, 2] ⟨1, 0⟩, .read 2, .info, .samples [3, 4] ⟨2, 0⟩, .info, .read 2] ∧
    (play ⟨[], [], ⟨⟨0, 0⟩, 0, 0⟩, 0⟩ {} [.samples [1, 2] ⟨1, 0⟩, .read 2]).1.readWriteDiffBytes =
      0 ∧
    (let r := play ⟨[], [], ⟨⟨0, 0⟩, 0, 0⟩, 0⟩ {}
      [.samples [1, 2] ⟨1, 0⟩, .read 2, .info, .samples [3, 4] ⟨2, 0⟩, .info]
    (r.1.step r.2 (.read 2)).2 = some ⟨⟨⟨1, 0⟩, 2, 0⟩, 0⟩ ∧ r.2.read = 2 ∧ r.2.start 1 = 2) ∧
    ¬Aligned ⟨fun n => 5 * n, rfl⟩ ⟨[], [], ⟨⟨0, 0⟩, 0, 0⟩, 0⟩ {}
      [.samples [1, 2] ⟨1, 0⟩, .read 2, .info, .samples [3, 4] ⟨2, 0⟩, .info, .read 2] := by
  refine ⟨?_, rfl, ⟨rfl, rfl, rfl⟩, ?_⟩
  · simp [Possible, History.Enabled, History.after, History.start]
  · intro hal
    have hbal := hal.play
    unfold Balanced at hbal
    exact absurd hbal (by decide)

end Beryllium.Audio
