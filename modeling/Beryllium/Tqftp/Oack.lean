import Beryllium.Tqftp.Window

/-!
# The acknowledgement of the options

The answer to a read request with options prints the values as they were stored. A client that
reads it as the server reads a request finds the same values.

## Main results

* `optionLoop_region` — the loop over the options reads back what was sent.
* `oack_agrees` — the acknowledgement of the options says what the server stored.
-/

namespace Beryllium.Tqftp

open Beryllium.Lib Beryllium.Qrtr List

/-! ## The text -/

/-- The options of an `OACK`, with their values. -/
def oackPairs (o : Options) (tsize : ℤ) : List (List UInt8 × List UInt8) :=
  [(ascii "blksize", decimal (Int.bmod o.blksize (2 ^ 64))),
    (ascii "timeoutms", decimal (Int.bmod o.timeoutms (2 ^ 32)))] ++
  (if tsize ≠ 0 ∧ tsize ≠ -1 then [(ascii "tsize", decimal tsize)] else []) ++
  (if o.wsize ≠ 0 then [(ascii "wsize", decimal (Int.bmod o.wsize (2 ^ 64)))] else []) ++
  (if o.rsize ≠ 0 then [(ascii "rsize", decimal (Int.bmod o.rsize (2 ^ 64)))] else [])

/-- Options as they are sent: every name and every value with its NUL. -/
def optionRegion (opts : List (List UInt8 × List UInt8)) : List UInt8 :=
  opts.flatMap fun q => q.1 ++ 0 :: (q.2 ++ [0])

def oackBytes (o : Options) (tsize : ℤ) : List UInt8 :=
  be16Bytes opOack ++ optionRegion (oackPairs o tsize)

section Oack
variable {o : Options} {tsize : ℤ}

theorem optionRegion_append (opts opts' : List (List UInt8 × List UInt8)) :
    optionRegion (opts ++ opts') = optionRegion opts ++ optionRegion opts' :=
  flatMap_append

theorem optionRegion_cons (name : String) (value : ℤ) (opts : List (List UInt8 × List UInt8)) :
    optionRegion ((ascii name, decimal value) :: opts) =
      oackOption name value ++ optionRegion opts :=
  flatMap_cons

theorem optionRegion_ite (p : Prop) [Decidable p] (name : String) (value : ℤ) :
    optionRegion (if p then [(ascii name, decimal value)] else []) =
      if p then oackOption name value else [] := by
  split
  · rw [optionRegion_cons]
    exact append_nil _
  · rfl

theorem tftpSendOack_eq (w : World) (s : Server) (sock : ℕ) (o : Options) (tsize : ℤ) :
    tftpSendOack w s sock o tsize = s.send w sock (oackBytes o tsize) := by
  have hnil : optionRegion [] = [] := rfl
  rw [tftpSendOack, oackBytes, oackPairs]
  simp only [optionRegion_append, optionRegion_cons, optionRegion_ite, hnil, append_nil,
    append_assoc]

theorem length_le_optionRegion (opts : List (List UInt8 × List UInt8)) :
    opts.length ≤ (optionRegion opts).length := by
  induction opts with
  | nil => exact Nat.zero_le _
  | cons q opts ih =>
    rw [optionRegion, flatMap_cons, length_append, length_append,
      length_cons, length_cons]
    exact Nat.add_comm opts.length 1 ▸ Nat.add_le_add (by omega) ih

theorem strAt_of_zero {front str rest : List UInt8} (hstr : 0 ∉ str) :
    strAt (front ++ (str ++ 0 :: rest)) front.length = .ok str := by
  rw [strAt, drop_left, cstring_of_zero hstr]

/-- The loop over the options reads back what was sent, and sets one after the other. -/
theorem optionLoop_region (opts : List (List UInt8 × List UInt8)) :
    ∀ (front : List UInt8) (fuel : ℕ) (o : Options),
      (∀ q ∈ opts, 0 ∉ q.1 ∧ 0 ∉ q.2) → opts.length < fuel →
      optionLoop (front ++ optionRegion opts) (front ++ optionRegion opts).length fuel
        front.length o = .ok (opts.foldl (fun o q => o.set q.1 q.2) o) := by
  induction opts with
  | nil =>
    intro front fuel o _ hfuel
    obtain ⟨fuel, rfl⟩ := Nat.exists_eq_succ_of_ne_zero (Nat.ne_of_gt hfuel)
    rw [optionLoop, if_neg (by simp [optionRegion])]
    rfl
  | cons q opts ih =>
    intro front fuel o hopts hfuel
    obtain ⟨fuel, rfl⟩ := Nat.exists_eq_succ_of_ne_zero (Nat.ne_of_gt (Nat.zero_lt_of_lt hfuel))
    obtain ⟨⟨hname, hvalue⟩, hrest⟩ := forall_mem_cons.1 hopts
    have hregion : optionRegion (q :: opts) =
        q.1 ++ 0 :: (q.2 ++ 0 :: optionRegion opts) := by
      simp [optionRegion]
    have hfront : front ++ optionRegion (q :: opts) =
        (front ++ (q.1 ++ [0])) ++ (q.2 ++ 0 :: optionRegion opts) := by
      simp [hregion]
    have hnext : front ++ optionRegion (q :: opts) =
        (front ++ (q.1 ++ [0]) ++ (q.2 ++ [0])) ++ optionRegion opts := by
      simp [hregion]
    have hopt : strAt (front ++ optionRegion (q :: opts)) front.length = .ok q.1 := by
      rw [hregion]
      exact strAt_of_zero hname
    have hval : strAt (front ++ optionRegion (q :: opts)) (front.length + (q.1.length + 1)) =
        .ok q.2 := by
      have hlen : (front ++ (q.1 ++ [0])).length = front.length + (q.1.length + 1) := by simp
      rw [hfront, ← hlen]
      exact strAt_of_zero hvalue
    have hstep := ih (front ++ (q.1 ++ [0]) ++ (q.2 ++ [0])) fuel (o.set q.1 q.2) hrest
      (by simpa using hfuel)
    have hlen : (front ++ (q.1 ++ [0]) ++ (q.2 ++ [0])).length =
        front.length + (q.1.length + 1) + (q.2.length + 1) := by
      simp only [length_append, length_singleton]
    have hmore : front.length < (front ++ optionRegion (q :: opts)).length := by
      rw [hnext, length_append, hlen]
      omega
    rw [← hnext, hlen] at hstep
    rw [optionLoop, if_pos hmore, hopt, ok_bind, hval, ok_bind]
    exact hstep

/-! ## The values -/

/-- What the options of a request can be: every value was an `int`. -/
structure Options.Stored (o : Options) : Prop extends o.Sized where
  rsize : IsSize o.rsize
  timeoutms : o.timeoutms < 2 ^ 32

theorem Options.Stored.set (h : o.Stored) {opt value : List UInt8} : (o.set opt value).Stored := by
  refine ⟨h.toSized.set, ?_, ?_⟩ <;> unfold Options.set <;> split_ifs
  all_goals first
    | exact h.rsize
    | exact h.timeoutms
    | exact isSize_atoi value
    | (simp only; omega)

theorem stored_of_request {buf : List UInt8} {len : ℕ} {r : Rrq}
    (h : parseRrq buf len = .ok (some r)) : r.options.Stored := by
  obtain ⟨name, mode, -, -, hloop, -⟩ := parseRrq_some h
  have hdefault : ({} : Options).Stored := ⟨sized_default, ⟨0, by decide⟩, by decide⟩
  exact optionLoop_keeps (fun _ _ _ h => h.set) (len + 1) hdefault hloop

theorem IsSize.bmod {n : ℕ} (h : IsSize n) :
    -2 ^ 31 ≤ Int.bmod n (2 ^ 64) ∧ Int.bmod n (2 ^ 64) < 2 ^ 31 ∧
      toSize (Int.bmod n (2 ^ 64)) = n := by
  obtain ⟨v, hlow, hhigh, rfl⟩ := h
  have hcast : ((toSize v : ℕ) : ℤ) = v % 2 ^ 64 := Int.toNat_of_nonneg (by omega)
  have hv : Int.bmod (toSize v) (2 ^ 64) = v := by
    have hmod : Int.bmod (v % (2 ^ 64 : ℕ)) (2 ^ 64) = Int.bmod v (2 ^ 64) := Int.emod_bmod ..
    rw [Int.natCast_pow] at hmod
    rw [hcast]
    refine hmod.trans ?_
    exact Int.bmod_eq_of_le (by omega) (by omega)
  rw [hv]
  exact ⟨hlow, hhigh, rfl⟩

/-- A size is read back from its digits. -/
theorem IsSize.read_back {n : ℕ} (h : IsSize n) :
    toSize (atoi (decimal (Int.bmod n (2 ^ 64)))) = n := by
  obtain ⟨hlow, hhigh, hn⟩ := h.bmod
  rw [decimal, atoi_ascii_toString hlow hhigh, hn]

theorem timeoutms_read_back {n : ℕ} (h : n < 2 ^ 32) :
    (atoi (decimal (Int.bmod n (2 ^ 32))) % 2 ^ 32).toNat = n := by
  have hlow : -2 ^ 31 ≤ Int.bmod n (2 ^ 32) := Int.le_bmod (by decide)
  have hhigh : Int.bmod n (2 ^ 32) < 2 ^ 31 := Int.bmod_lt (by decide)
  have hmod : Int.bmod n (2 ^ 32) % (2 ^ 32 : ℕ) = n % (2 ^ 32 : ℕ) := Int.bmod_emod
  rw [decimal, atoi_ascii_toString hlow hhigh]
  omega

theorem set_blksize (o : Options) (value : List UInt8) :
    o.set (ascii "blksize") value = { o with blksize := toSize (atoi value) } :=
  if_pos rfl

theorem set_timeoutms (o : Options) (value : List UInt8) :
    o.set (ascii "timeoutms") value = { o with timeoutms := (atoi value % 2 ^ 32).toNat } := by
  rw [Options.set, if_neg (by decide), if_pos rfl]

theorem set_tsize (o : Options) (value : List UInt8) :
    o.set (ascii "tsize") value = { o with tsize := atoi value } := by
  rw [Options.set, if_neg (by decide), if_neg (by decide), if_pos rfl]

theorem set_rsize (o : Options) (value : List UInt8) :
    o.set (ascii "rsize") value = { o with rsize := toSize (atoi value) } := by
  rw [Options.set, if_neg (by decide), if_neg (by decide), if_neg (by decide), if_pos rfl]

theorem set_wsize (o : Options) (value : List UInt8) :
    o.set (ascii "wsize") value = { o with wsize := toSize (atoi value) } := by
  rw [Options.set, if_neg (by decide), if_neg (by decide), if_neg (by decide),
    if_neg (by decide), if_pos rfl]

theorem foldl_set_ite (o : Options) (p : Prop) [Decidable p] (name value : List UInt8) :
    (if p then [(name, value)] else []).foldl (fun o q => o.set q.1 q.2) o =
      if p then o.set name value else o := by
  split <;> rfl

theorem foldl_oackPairs (h : o.Stored) :
    ∃ t, (oackPairs o tsize).foldl (fun o q => o.set q.1 q.2) ({} : Options) =
      (⟨t, o.blksize, o.timeoutms, o.rsize, o.wsize⟩ : Options) := by
  simp only [oackPairs, foldl_append, foldl_cons, foldl_nil, foldl_set_ite,
    set_blksize, set_timeoutms, set_tsize, set_rsize, set_wsize, h.blksize.read_back,
    h.wsize.read_back, h.rsize.read_back, timeoutms_read_back h.timeoutms]
  by_cases hw : o.wsize = 0 <;> by_cases hr : o.rsize = 0
  all_goals
    simp only [hw, hr, ne_eq, not_true_eq_false, not_false_eq_true, if_true, if_false]
    split <;> exact ⟨_, rfl⟩

theorem length_oackOption (name : String) (value : ℤ) :
    (oackOption name value).length = (ascii name).length + (decimal value).length + 2 := by
  simp [oackOption]
  omega

theorem length_decimal_size {n : ℕ} (h : IsSize n) :
    (decimal (Int.bmod n (2 ^ 64))).length ≤ 11 := by
  obtain ⟨hlow, hhigh, -⟩ := h.bmod
  exact length_ascii_toString_le (by decide) (by omega)

/-- An `OACK` fits into its buffer. -/
theorem length_oackBytes (h : o.Stored) (htsize : tsize.natAbs < 2 ^ 63) :
    (oackBytes o tsize).length ≤ 512 := by
  have hB := length_decimal_size h.blksize
  have hW := length_decimal_size h.wsize
  have hR := length_decimal_size h.rsize
  have hT : (decimal (Int.bmod o.timeoutms (2 ^ 32))).length ≤ 11 := by
    have hlow : -2 ^ 31 ≤ Int.bmod o.timeoutms (2 ^ 32) := Int.le_bmod (by decide)
    have hhigh : Int.bmod o.timeoutms (2 ^ 32) < 2 ^ 31 := Int.bmod_lt (by decide)
    exact length_ascii_toString_le (by decide) (by omega)
  have hS : (decimal tsize).length ≤ 20 := length_ascii_toString_le (by decide) (by omega)
  have hnames : (ascii "blksize").length = 7 ∧ (ascii "timeoutms").length = 9 ∧
      (ascii "tsize").length = 5 ∧ (ascii "wsize").length = 5 ∧ (ascii "rsize").length = 5 := by
    decide
  have hite (p : Prop) [Decidable p] (name : String) (value : ℤ) :
      (if p then oackOption name value else []).length ≤ (oackOption name value).length := by
    split
    · exact Nat.le_refl _
    · exact Nat.zero_le _
  have h₁ := hite (tsize ≠ 0 ∧ tsize ≠ -1) "tsize" tsize
  have h₂ := hite (o.wsize ≠ 0) "wsize" (Int.bmod o.wsize (2 ^ 64))
  have h₃ := hite (o.rsize ≠ 0) "rsize" (Int.bmod o.rsize (2 ^ 64))
  have hnil : (optionRegion []).length = 0 := rfl
  have hhead : (be16Bytes opOack).length = 2 := rfl
  rw [length_oackOption] at h₁ h₂ h₃
  simp only [oackBytes, oackPairs, optionRegion_append, optionRegion_cons, optionRegion_ite,
    length_append, length_oackOption, hnil, hhead]
  omega

theorem zero_notMem_oackPairs : ∀ q ∈ oackPairs o tsize, 0 ∉ q.1 ∧ 0 ∉ q.2 := by
  have hvalue (v : ℤ) : 0 ∉ decimal v := zero_notMem_ascii_toString v
  have hite (p : Prop) [Decidable p] (name : String) (v : ℤ) (hname : 0 ∉ ascii name) :
      ∀ q ∈ if p then [(ascii name, decimal v)] else [], 0 ∉ q.1 ∧ 0 ∉ q.2 := by
    intro q hq
    split at hq
    · rw [mem_singleton.1 hq]
      exact ⟨hname, hvalue v⟩
    · cases hq
  rw [oackPairs]
  simp only [forall_mem_append, forall_mem_cons]
  exact ⟨⟨⟨⟨⟨by decide, hvalue _⟩, ⟨by decide, hvalue _⟩, fun _ h => by cases h⟩,
    hite _ _ _ (by decide)⟩, hite _ _ _ (by decide)⟩, hite _ _ _ (by decide)⟩

/-- The options are read back from an `OACK`. -/
theorem optionLoop_oackBytes (h : o.Stored) :
    ∃ t, optionLoop (oackBytes o tsize) (oackBytes o tsize).length
      ((oackBytes o tsize).length + 1) 2 {} =
        .ok ⟨t, o.blksize, o.timeoutms, o.rsize, o.wsize⟩ := by
  obtain ⟨t, ht⟩ := @foldl_oackPairs o tsize h
  have hlen := length_le_optionRegion (oackPairs o tsize)
  refine ⟨t, ?_⟩
  have hloop := optionLoop_region (oackPairs o tsize) (be16Bytes opOack)
    ((oackBytes o tsize).length + 1) {} zero_notMem_oackPairs
    (by rw [oackBytes, length_append]; omega)
  rw [ht] at hloop
  exact hloop

end Oack

/-- **The options are acknowledged as they were stored.** For every request with options, whatever
the file and the system: the loop over the options reads from the `OACK` the sizes and the timeout
that the new reader has, and the `OACK` fits into 512 bytes. -/
theorem oack_agrees {s : Server} {w : World} {sq : Sockaddr} {buf : List UInt8} {len : ℕ} {r : Rrq}
    {file : Opened} (hreq : parseRrq buf len = .ok (some r)) (hoack : r.doOack = true)
    (hsocket : w.socketOk = true) (hconnect : w.connectOk = true)
    (hopen : translateOpen s.target w.files r.filename .rdonly = some file)
    (hfile : ((s.disk file.path).getD []).length < 2 ^ 63) :
    ∃ (s₁ : Server) (c : Client) (oack : List UInt8) (o : Options),
      handleRrq w s sq r = .ok (s₁.send w c.sock oack).1 ∧ s₁.readers = s.readers ++ [c] ∧
      oack.length ≤ 512 ∧ optionLoop oack oack.length (oack.length + 1) 2 {} = .ok o ∧
      o.blksize = c.blksize ∧ o.timeoutms = c.timeoutms ∧ o.wsize = c.wsize ∧
      o.rsize = c.rsize := by
  have hstored := stored_of_request hreq
  let sock := w.pick s.fds
  let fd := w.pick (s.openSock sock).fds
  let c : Client := ⟨sq, sock, fd, r.options.blksize, r.options.rsize, r.options.wsize,
    r.options.timeoutms⟩
  let s₂ := (s.openSock sock).openFile fd file
  let tsize : ℤ := if r.options.tsize = -1 then -1 else ((s₂.content fd).length : ℤ)
  have htsize : tsize.natAbs < 2 ^ 63 := by
    have hcontent : s₂.content fd = (s.disk file.path).getD [] := content_openFile ..
    simp only [tsize, hcontent]
    split
    · decide
    · exact hfile
  obtain ⟨t, hloop⟩ := @optionLoop_oackBytes r.options tsize hstored
  refine ⟨{ s₂ with readers := s₂.readers ++ [c] }, c, oackBytes r.options tsize, _, ?_, rfl,
    length_oackBytes hstored htsize, hloop, rfl, rfl, rfl, rfl⟩
  rw [← tftpSendOack_eq]
  unfold handleRrq
  simp only [hsocket, hconnect, hopen, hoack, Bool.true_eq_false, if_false, if_true]
  rfl

theorem oack_agrees_small :
    ∃ (s₁ : Server) (c : Client) (oack : List UInt8) (o : Options),
      handleRrq calmWorld (Server.start .android 3 fun _ => some [1]) ⟨1, 5⟩
        ⟨ascii "/readwrite/a", ⟨-1, 2, 1000, 0, 1⟩, true⟩ = .ok (s₁.send calmWorld c.sock oack).1 ∧
      s₁.readers = [c] ∧ oack.length ≤ 512 ∧
      optionLoop oack oack.length (oack.length + 1) 2 {} = .ok o ∧ o.blksize = c.blksize ∧
      o.timeoutms = c.timeoutms ∧ o.wsize = c.wsize ∧ o.rsize = c.rsize :=
  oack_agrees (smallBlocks_accepted [1]).request rfl rfl rfl (smallBlocks_accepted [1]).opened
    (by decide)

end Beryllium.Tqftp
