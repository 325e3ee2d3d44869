import Beryllium.Lib.Memory

/-!
# Writing TLVs into a buffer

A writer copies bytes to where it stands in a buffer. In front of a value it leaves room for
a tag and a length, which it fills in when the value is complete. Each copy stands behind a
check, and the check need not count what is copied: it counts `counted` bytes and lets them
end up to `slack` bytes behind the limit. A step that passes its check and still ends behind
the limit has escaped.

## Main definitions

* `Step`, `Cursor` — what a writer does, and where it stands.
* `play` — steps in a row, up to the first that is refused or escapes.
* `Contained` — no step escapes.
* `Step.Honest` — a step that is only refused if its bytes do not fit.

## Main results

* `play_append` — steps are played one after the other.
* `play_ne_escaped_iff` — a writer stays below its limit if its steps are contained.
-/

namespace Beryllium.Lib

/-- A step of a writer. -/
inductive Step where
  /-- Copy bytes, if `counted` bytes end at most `slack` bytes behind the limit. -/
  | copy (counted slack : ℕ) (bytes : List UInt8)
  /-- Fill in the tag and the length of the value, and leave room for the next ones. -/
  | close (tag : UInt8)
  deriving DecidableEq, Repr

/-- The bytes by which a step moves the writer. -/
def Step.size : Step → ℕ
  | .copy _ _ bytes => bytes.length
  | .close _ => 3

/-- A buffer, where the next byte goes, and where the tag of the value goes. -/
structure Cursor where
  buf : List UInt8
  pos : ℕ
  tlv : ℕ
  deriving DecidableEq, Repr

namespace Cursor

def copy (c : Cursor) (bytes : List UInt8) : Cursor :=
  ⟨overwrite c.buf c.pos bytes, c.pos + bytes.length, c.tlv⟩

/-- The tag and the length of a value were filled in. -/
def close (c : Cursor) (tag : UInt8) : Cursor :=
  ⟨overwrite c.buf c.tlv (tag :: leBytes 2 (c.pos - (c.tlv + 3))), c.pos + 3, c.pos⟩

/-- Nothing was written behind the limit, and the next tag does not start behind it. -/
structure Inside (limit : ℕ) (c : Cursor) : Prop where
  buf : limit ≤ c.buf.length
  tlv : c.tlv ≤ limit
  pos : c.pos ≤ limit ∨ c.pos = c.tlv + 3

end Cursor

/-- What comes of steps. -/
inductive Played where
  | on (c : Cursor)
  | refused (buf : List UInt8)
  | escaped
  deriving DecidableEq, Repr

/-- One step in front of a limit. -/
def Step.play (limit : ℕ) (c : Cursor) : Step → Played
  | .copy counted slack bytes =>
      if limit + slack < c.pos + counted then .refused c.buf
      else if bytes = [] ∨ c.pos + bytes.length ≤ limit then .on (c.copy bytes)
      else .escaped
  | .close tag => if c.tlv + 3 ≤ limit then .on (c.close tag) else .escaped

def play (limit : ℕ) : List Step → Cursor → Played
  | [], c => .on c
  | step :: steps, c =>
      match step.play limit c with
      | .on c' => play limit steps c'
      | .refused buf => .refused buf
      | .escaped => .escaped

/-- A copy passes its check, at `pos`. -/
def Passes (limit pos counted slack : ℕ) : Prop := pos + counted ≤ limit + slack

/-- Up to the first copy that is refused, every copy whose check counts less than it lets in
ends in front of the limit, and so does every header. -/
def Contained (limit : ℕ) : ℕ → ℕ → List Step → Prop
  | _, _, [] => True
  | pos, tlv, .copy counted slack bytes :: steps =>
      Passes limit pos counted slack →
        (counted < bytes.length + slack → bytes = [] ∨ pos + bytes.length ≤ limit) ∧
          Contained limit (pos + bytes.length) tlv steps
  | pos, tlv, .close _ :: steps => tlv + 3 ≤ limit ∧ Contained limit (pos + 3) pos steps

instance (limit pos counted slack : ℕ) : Decidable (Passes limit pos counted slack) :=
  inferInstanceAs (Decidable (_ ≤ _))

instance decidableContained (limit : ℕ) :
    ∀ (pos tlv : ℕ) (steps : List Step), Decidable (Contained limit pos tlv steps)
  | _, _, [] => .isTrue trivial
  | pos, tlv, .copy counted slack bytes :: steps =>
      have := decidableContained limit (pos + bytes.length) tlv steps
      inferInstanceAs (Decidable (Passes limit pos counted slack →
        (counted < bytes.length + slack → bytes = [] ∨ pos + bytes.length ≤ limit) ∧
          Contained limit (pos + bytes.length) tlv steps))
  | pos, tlv, .close _ :: steps =>
      have := decidableContained limit (pos + 3) pos steps
      inferInstanceAs (Decidable (tlv + 3 ≤ limit ∧ Contained limit (pos + 3) pos steps))

section Play
variable {limit : ℕ} {c c' : Cursor} {step : Step} {steps steps' : List Step}

theorem play_append (limit : ℕ) (steps steps' : List Step) (c : Cursor) :
    play limit (steps ++ steps') c =
      match play limit steps c with
      | .on c' => play limit steps' c'
      | .refused buf => .refused buf
      | .escaped => .escaped := by
  induction steps generalizing c with
  | nil => rfl
  | cons step steps ih =>
    rw [List.cons_append, play, play]
    cases step.play limit c with
    | on c' => exact ih c'
    | refused buf => rfl
    | escaped => rfl

/-- **A writer stays below its limit if its steps are contained.** -/
theorem play_ne_escaped_iff :
    play limit steps c ≠ .escaped ↔ Contained limit c.pos c.tlv steps := by
  induction steps generalizing c with
  | nil => simp [play, Contained]
  | cons step steps ih =>
    cases step with
    | copy counted slack bytes =>
      rw [play, Step.play, Contained]
      by_cases hpass : Passes limit c.pos counted slack
      · have hcheck : ¬limit + slack < c.pos + counted := Nat.not_lt.mpr hpass
        unfold Passes at hpass
        by_cases hfit : bytes = [] ∨ c.pos + bytes.length ≤ limit
        · rw [if_neg hcheck, if_pos hfit]
          simp only [Passes, hpass, hfit, implies_true, true_and, forall_const]
          exact ih
        · have hloose : counted < bytes.length + slack := by omega
          simp [Passes, hcheck, hpass, hfit, hloose]
      · have hcheck : limit + slack < c.pos + counted := Nat.not_le.mp hpass
        simp [hcheck, hpass]
    | close tag =>
      rw [play, Step.play, Contained]
      by_cases hfit : c.tlv + 3 ≤ limit
      · rw [if_pos hfit]
        simp only [hfit, true_and]
        exact ih
      · simp [hfit]

/-- What a step keeps. -/
structure Moved (limit : ℕ) (c c' : Cursor) (size : ℕ) : Prop where
  inside : c'.Inside limit
  length : c'.buf.length = c.buf.length
  pos : c'.pos = c.pos + size

theorem Step.play_moved (hc : c.Inside limit) (h : step.play limit c = .on c') :
    Moved limit c c' step.size := by
  obtain ⟨hbuf, htlv, hpos⟩ := hc
  cases step with
  | copy counted slack bytes =>
    rw [Step.play] at h
    split at h
    · cases h
    · split at h
      · next hfit =>
          cases h
          have hlen : (overwrite c.buf c.pos bytes).length = c.buf.length := by
            obtain rfl | hfit := hfit
            · rw [overwrite_nil]
            · exact length_overwrite (by omega)
          refine ⟨⟨hlen ▸ hbuf, htlv, ?_⟩, hlen, rfl⟩
          obtain rfl | hfit := hfit
          · exact hpos
          · exact .inl hfit
      · cases h
  | close tag =>
    rw [Step.play] at h
    split at h
    · next hfit =>
        cases h
        have hlen : (c.close tag).buf.length = c.buf.length :=
          length_overwrite (by simp only [List.length_cons, length_leBytes]; omega)
        refine ⟨⟨hlen ▸ hbuf, ?_, .inr rfl⟩, hlen, rfl⟩
        change c.pos ≤ limit
        omega
    · cases h

theorem play_moved (hc : c.Inside limit) (h : play limit steps c = .on c') :
    Moved limit c c' (steps.map Step.size).sum := by
  induction steps generalizing c with
  | nil =>
    cases h
    exact ⟨hc, rfl, rfl⟩
  | cons step steps ih =>
    rw [play] at h
    cases hstep : step.play limit c with
    | on c₁ =>
      rw [hstep] at h
      obtain ⟨hin, hlen, hpos⟩ := Step.play_moved hc hstep
      obtain ⟨hin', hlen', hpos'⟩ := ih hin h
      refine ⟨hin', hlen'.trans hlen, ?_⟩
      rw [hpos', hpos, List.map_cons, List.sum_cons, Nat.add_assoc]
    | refused buf =>
      rw [hstep] at h
      cases h
    | escaped =>
      rw [hstep] at h
      cases h

/-- A copy whose check asks for no more room than its bytes need. -/
def Step.Honest : Step → Prop
  | .copy counted slack bytes => counted ≤ bytes.length + slack
  | .close _ => True

theorem play_copy {counted slack : ℕ} {bytes : List UInt8}
    (h : (Step.copy counted slack bytes).Honest) (hfit : c.pos + bytes.length ≤ limit) :
    play limit [.copy counted slack bytes] c = .on (c.copy bytes) := by
  have hcheck : ¬limit + slack < c.pos + counted := by
    unfold Step.Honest at h
    omega
  rw [play, Step.play, if_neg hcheck, if_pos (.inr hfit)]
  rfl

end Play

end Beryllium.Lib
