import Beryllium.Lib.LockOrder

/-!
# The mutexes of the audio device

The device of `audio_hw.c` has a mutex, every stream has one, and the echo canceller of
`audio_aec.c` has one. The calls of the device, from any number of threads, are below what they
do with these mutexes. What a call finds, and whether the system calls in it succeed, are
arguments of the call where the mutexes depend on it. The FIFOs of the echo canceller and some
of its fields are also used without its mutex, so that what the mutexes protect is not a part of
the model.

The order is the one of the notes in `in_read` and `out_write`: an input stream before the
device, the device before an output stream, and the echo canceller last.

## Main results

* `audio_calls_return` — every interleaving of calls ends, and no two threads hold a mutex.
-/

namespace Beryllium.Audio

open Beryllium.Lib

/-- The `lock` of a stream, of the device and of the echo canceller. -/
inductive Mutex where
  | streamIn (n : ℕ)
  | adev
  | streamOut (n : ℕ)
  | aec
  deriving DecidableEq

/-- The order in which mutexes are taken, by how many kinds may be taken under them. -/
def Mutex.rank : Mutex → ℕ
  | .streamIn _ => 3
  | .adev => 2
  | .streamOut _ => 1
  | .aec => 0

/-! ## The functions -/

/-- The functions of `audio_aec.c` that take the mutex for all they do: `aec_set_spk_running`,
`aec_get_spk_running`, `release_aec_interface`, and those that set the configuration of the
reference or of the microphone and that destroy it. -/
def aecLocked : List (LockAct Mutex) := [.acquire .aec, .release .aec]

/-- `adev_get_mic_mute` and `adev_set_mic_mute`. -/
def adevMicMute : List (LockAct Mutex) := [.acquire .adev, .release .adev]

/-- A call of the device or of a stream. `standby` is what the call finds, `ok` is whether the PCM
device is opened, and `aec` whether `process_aec` gets to the state of the speaker. -/
inductive HalCall where
  | outStandby (n : ℕ)
  | outSetParameters (n : ℕ) (routing : Bool)
  | outWrite (n : ℕ) (standby ok : Bool)
  | inStandby (n : ℕ)
  | inRead (n : ℕ) (aec : Bool)
  /-- `in_read` of the echo reference. -/
  | inReadReference
  | inGetActiveMicrophones
  | adevSetMicMute
  | adevGetMicMute
  | adevOpenOutputStream (accepted : Bool)
  | adevCloseOutputStream
  | adevOpenInputStream (aecInput : Bool)
  | adevCloseInputStream (aecInput : Bool)
  | adevClose

def HalCall.acts : HalCall → List (LockAct Mutex)
  | .outStandby n =>
    -- `do_output_standby` tells the echo canceller, also of a stream in standby
    [.acquire .adev, .acquire (.streamOut n)] ++ aecLocked ++
      [.release (.streamOut n), .release .adev]
  | .outSetParameters n routing =>
    if routing then [.acquire .adev, .acquire (.streamOut n), .release (.streamOut n),
      .release .adev]
    else []
  | .outWrite n standby ok =>
    [.acquire .adev, .acquire (.streamOut n)] ++ (if standby && ok then aecLocked else []) ++
      [.release .adev, .release (.streamOut n)]
  | .inStandby n =>
    [.acquire (.streamIn n), .acquire .adev, .release .adev, .release (.streamIn n)]
  | .inRead n aec =>
    -- the same whether the stream is started, is running, or cannot be started
    [.acquire (.streamIn n), .acquire .adev, .release .adev, .release (.streamIn n)] ++
      adevMicMute ++ if aec then aecLocked else []
  | .inReadReference => aecLocked
  | .inGetActiveMicrophones | .adevSetMicMute | .adevGetMicMute => adevMicMute
  | .adevOpenOutputStream accepted => if accepted then aecLocked else []
  | .adevOpenInputStream aecInput | .adevCloseInputStream aecInput =>
    if aecInput then aecLocked else []
  | .adevCloseOutputStream | .adevClose => aecLocked

/-! ## Interleavings -/

def atCalls {ι : Type} (calls : ι → List HalCall) (i : ι) : Thread Mutex :=
  ⟨[], (calls i).flatMap HalCall.acts⟩

/-- Every call takes the mutexes in order and gives them back. -/
theorem disciplined_acts (c : HalCall) : Disciplined Mutex.rank [] c.acts := by
  -- the calls with each value of their conditions
  rcases c with n | ⟨n, _ | _⟩ | ⟨n, _ | _, _ | _⟩ | n | ⟨n, _ | _⟩ | _ | _ | _ | _ | ⟨_ | _⟩ | _ |
    ⟨_ | _⟩ | ⟨_ | _⟩ | _ <;>
  simp [HalCall.acts, adevMicMute, aecLocked, Disciplined, LockAct.Allowed, LockAct.after,
    Mutex.rank]

/-- **The calls of the audio device return, in every interleaving.** Whatever calls the threads
make: no two threads hold the same mutex at a time, a run has at most as many steps as the calls
have, and it can go on until all calls have returned and all mutexes are free. -/
theorem audio_calls_return {ι : Type} [Fintype ι] [DecidableEq ι] (calls : ι → List HalCall)
    {n : ℕ} {s : ι → Thread Mutex} (hrun : Run (atCalls calls) n s) :
    (∀ i j m, m ∈ (s i).held → m ∈ (s j).held → i = j) ∧
      n ≤ ∑ i, ((calls i).flatMap HalCall.acts).length ∧
      ((∃ s', Moves s s') ∨ ∀ i, s i = ⟨[], []⟩) := by
  have h : Orderly Mutex.rank s :=
    (orderly_start fun i => disciplined_flatMap disciplined_acts (calls i)).run hrun
  refine ⟨h.exclusive, ?_, ?_⟩
  · have hwork : n + work s = ∑ i, ((calls i).flatMap HalCall.acts).length := hrun.work_eq
    omega
  · by_cases hdone : ∀ i, (s i).todo = []
    · refine .inr fun i => ?_
      have hheld := h.disciplined i
      rw [hdone i] at hheld
      exact congrArg₂ Thread.mk hheld (hdone i)
    · push Not at hdone
      obtain ⟨i, hi⟩ := hdone
      exact .inl (h.exists_moves hi)

/-- A thread that writes and one that reads. -/
def writerAndReader (t : Bool) : List HalCall :=
  if t then [.outWrite 0 true true] else [.inRead 1 false]

theorem audio_calls_return_two : ∃ s, Run (atCalls writerAndReader) 1 s ∧
    ((∃ s', Moves s s') ∨ ∀ i, s i = ⟨[], []⟩) := by
  have hrun := Run.start.move (Moves.act (s := atCalls writerAndReader) (i := true) rfl
    fun _ => List.not_mem_nil)
  exact ⟨_, hrun, (audio_calls_return _ hrun).2.2⟩

end Beryllium.Audio
