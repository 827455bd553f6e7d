import Lsmrs.Wal.Frames

/-!
# Replaying the log

`replay` inverts appending: complete records come back in order, and a torn
record at the end is dropped.  On any other file it reads the accepted frames
up to the first place where there is none.
-/

namespace Lsmrs

open ByteString

variable {hash : Bytes → UInt32}

/-! ## One record -/

theorem encode_eq_frame (r : Record) :
    r.encode hash = frame hash (payload r.key r.value r.operation) := rfl

@[simp] theorem encode_length (r : Record) :
    (r.encode hash).length = r.key.length + r.value.length + 17 := by
  simp [Record.encode, createBody]
  omega

theorem Record.Fits.lengths {r : Record} (h : r.Fits) :
    r.key.length < 256 ^ 4 ∧ r.value.length < 256 ^ 4 := by
  simp only [Record.Fits, payload_length, crcSize] at h
  omega

/-- A parsed record takes its key length from the first four bytes, and all
of its fields lie inside the payload. -/
theorem parseRecord_eq_ok {p : Bytes} {r : Record}
    (h : parseRecord p = .ok r) :
    r.key.length = fromLeBytes (p.take 4) ∧
      r.key.length + r.value.length + 9 ≤ p.length := by
  simp only [parseRecord, bind_eq_ok, slice_eq_ok, index_eq_ok] at h
  obtain ⟨_, ⟨-, rfl⟩, key, ⟨hkey, rfl⟩, _, ⟨-, rfl⟩, value, ⟨hvalue, rfl⟩,
    b, hb, op, -, hr⟩ := h
  cases hr
  have hlt := (List.getElem?_eq_some_iff.mp hb).1
  simp only [List.length_take, List.length_drop, Nat.sub_zero,
    List.drop_zero] at *
  omega

theorem map_record_fits {ms : List Mutation}
    (hms : ∀ m ∈ ms, m.record.Fits) :
    ∀ r ∈ ms.map Mutation.record, r.Fits := by
  intro r hr
  obtain ⟨m, hm, rfl⟩ := List.mem_map.mp hr
  exact hms m hm

/-! ## One frame -/

/-- The frames `readFrame` accepts, spelled out. -/
theorem readFrame_eq_record {s : Bytes} {r : Record} {rest : Bytes} :
    readFrame hash s = .record r rest ↔
      ∃ lengthBytes checksumBytes p,
        s = lengthBytes ++ (checksumBytes ++ (p ++ rest)) ∧
        lengthBytes.length = 4 ∧ checksumBytes.length = 4 ∧
        fromLeBytes lengthBytes = crcSize + p.length ∧
        (hash p).toNat = fromLeBytes checksumBytes ∧
        parseRecord p = .ok r := by
  constructor
  · intro h
    rw [readFrame] at h
    split at h
    next => cases h
    next lengthBytes s₁ h₁ =>
    dsimp only at h
    split at h
    next => cases h
    next hlen =>
    split at h
    next => cases h
    next checksumBytes s₂ h₂ =>
    split at h
    next => cases h
    next p s₃ h₃ =>
    split at h
    next => cases h
    next hcrc =>
    split at h
    next => cases h
    next r' hr =>
      obtain ⟨rfl, rfl⟩ := Frame.record.inj h
      obtain ⟨rfl, hl⟩ := takeExact_eq_some.mp h₁
      obtain ⟨rfl, hc⟩ := takeExact_eq_some.mp h₂
      obtain ⟨rfl, hp⟩ := takeExact_eq_some.mp h₃
      exact ⟨lengthBytes, checksumBytes, p, rfl, hl, hc, by omega,
        not_not.mp hcrc, hr⟩
  · rintro ⟨lengthBytes, checksumBytes, p, rfl, hl, hc, hlen, hcrc, hr⟩
    have hp : p.length = fromLeBytes lengthBytes - crcSize := by omega
    have hge : ¬ fromLeBytes lengthBytes < crcSize := by omega
    simp only [readFrame, takeExact_append_of_length hl, if_neg hge,
      takeExact_append_of_length hc, takeExact_append_of_length hp,
      ne_eq, hcrc, not_true_eq_false, if_false, hr]

/-- A record's frame is one with nothing behind its last field. -/
theorem looseFrame_nil (r : Record) :
    looseFrame hash (r, []) = r.encode hash := by
  rw [looseFrame, List.append_nil, encode_eq_frame]

theorem looseFits_nil {r : Record} : LooseFits (r, []) ↔ r.Fits := by
  rw [LooseFits, List.append_nil]
  rfl

theorem parseRecord_payload {r : Record} (hr : r.Fits) :
    parseRecord (payload r.key r.value r.operation) = .ok r := by
  have hparse := parseRecord_loose (looseFits_nil.mpr hr)
  rwa [List.append_nil] at hparse

/-- Going on to the next frame consumes bytes. -/
theorem readFrame_shorter {s : Bytes} {r : Record} {rest : Bytes}
    (h : readFrame hash s = .record r rest) :
    rest.length < s.length := by
  obtain ⟨_, _, _, rfl, hl, _⟩ := readFrame_eq_record.mp h
  simp [hl]
  omega

/-- A strict prefix of a record never completes its frame. -/
theorem readFrame_torn {r : Record} (hr : r.Fits) {t : Bytes}
    (ht : t <+: r.encode hash) (hne : t ≠ r.encode hash) :
    readFrame hash t = .stop := by
  have hlt : t.length < (r.encode hash).length :=
    lt_of_le_of_ne ht.length_le fun heq => hne (ht.eq_of_length heq)
  rw [encode_length] at hlt
  refine readFrame_unfinished ?_
  by_cases hheader : t.length < 4
  · exact Or.inl hheader
  · -- The header is whole, and announces more than there is.
    right
    have htake : t.take 4 = toLeBytes 4
        (crcSize + (payload r.key r.value r.operation).length) := by
      obtain ⟨missing, hmissing⟩ := ht
      have htake : (t ++ missing).take 4 = t.take 4 :=
        List.take_append_of_le_length (not_lt.mp hheader)
      rw [← htake, hmissing, Record.encode, createBody]
      exact List.take_left' (toLeBytes_length 4 _)
    rw [htake, fromLeBytes_toLeBytes_of_lt hr, payload_length, crcSize]
    omega

/-! ## The whole log -/

theorem readLoop_turns {s : Bytes} {turns : ℕ} (h : s.length ≤ turns) :
    readLoop hash turns s = replay hash s := by
  suffices hgen : ∀ n m (s : Bytes), s.length ≤ n → s.length ≤ m →
      readLoop hash n s = readLoop hash m s from
    hgen turns s.length s h le_rfl
  have hnil : readFrame hash [] = .stop := rfl
  intro n
  induction n with
  | zero =>
      intro m s hn _
      obtain rfl : s = [] := List.length_eq_zero_iff.mp (by omega)
      cases m <;> simp [readLoop, hnil]
  | succ n ih =>
      intro m s hn hm
      cases m with
      | zero =>
          obtain rfl : s = [] := List.length_eq_zero_iff.mp (by omega)
          simp [readLoop, hnil]
      | succ m =>
          rw [readLoop, readLoop]
          split
          next => rfl
          next => rfl
          next r rest hframe =>
            have hshorter := readFrame_shorter hframe
            rw [ih m rest (by omega) (by omega)]

/-- `replay` by its first frame. -/
theorem replay_eq (s : Bytes) :
    replay hash s = match readFrame hash s with
      | .stop => .ok []
      | .fail e => .error e
      | .record r rest => (replay hash rest).map (r :: ·) := by
  rw [← readLoop_turns (Nat.le_succ s.length), readLoop]
  cases hframe : readFrame hash s with
  | stop => rfl
  | fail e => rfl
  | record r rest =>
      have hshorter := readFrame_shorter hframe
      dsimp only
      rw [readLoop_turns (by omega)]

/-- The bytes of complete records, one after the other. -/
def logOf (hash : Bytes → UInt32) (rs : List Record) : Bytes :=
  rs.flatMap (Record.encode hash)

@[simp] theorem logOf_nil : logOf hash [] = [] := rfl

theorem logOf_cons (r : Record) (rs : List Record) :
    logOf hash (r :: rs) = r.encode hash ++ logOf hash rs := rfl

theorem logOf_append (rs rs' : List Record) :
    logOf hash (rs ++ rs') = logOf hash rs ++ logOf hash rs' :=
  List.flatMap_append

theorem logOf_singleton (r : Record) :
    logOf hash [r] = r.encode hash := by
  simp [logOf]

/-! ## Accepted frames -/

/-- Accepted frames, one after the other. -/
def looseLogOf (hash : Bytes → UInt32) (xs : List (Record × Bytes)) :
    Bytes :=
  xs.flatMap (looseFrame hash)

theorem looseLogOf_cons (x : Record × Bytes) (xs : List (Record × Bytes)) :
    looseLogOf hash (x :: xs) = looseFrame hash x ++ looseLogOf hash xs :=
  rfl

theorem looseLogOf_append (xs ys : List (Record × Bytes)) :
    looseLogOf hash (xs ++ ys) = looseLogOf hash xs ++ looseLogOf hash ys :=
  List.flatMap_append

/-- Without bytes behind the last fields these are the frames of records. -/
theorem looseLogOf_eq_logOf {xs : List (Record × Bytes)}
    (h : ∀ x ∈ xs, x.2 = []) :
    looseLogOf hash xs = logOf hash (xs.map Prod.fst) := by
  induction xs with
  | nil => rfl
  | cons x xs ih =>
      obtain ⟨hx, hxs⟩ := List.forall_mem_cons.mp h
      obtain ⟨r, slack⟩ := x
      obtain rfl : slack = [] := hx
      rw [looseLogOf_cons, ih hxs, looseFrame_nil, List.map_cons, logOf_cons]

/-- Accepted frames are read back, and reading goes on behind them. -/
theorem replay_looseLogOf_append {xs : List (Record × Bytes)}
    (hxs : ∀ x ∈ xs, LooseFits x) (tail : Bytes) :
    replay hash (looseLogOf hash xs ++ tail) =
      (replay hash tail).map (xs.map Prod.fst ++ ·) := by
  induction xs with
  | nil =>
      change replay hash tail = _
      cases replay hash tail <;> rfl
  | cons x xs ih =>
      obtain ⟨hx, hxs⟩ := List.forall_mem_cons.mp hxs
      rw [looseLogOf_cons, List.append_assoc, replay_eq,
        readFrame_looseFrame hx]
      dsimp only
      rw [ih hxs]
      cases replay hash tail <;> rfl

/-- Complete records are read back, and reading goes on behind them. -/
theorem replay_logOf_append
    {rs : List Record} (hrs : ∀ r ∈ rs, r.Fits) (tail : Bytes) :
    replay hash (logOf hash rs ++ tail) =
      (replay hash tail).map (rs ++ ·) := by
  have hmap : (rs.map fun r => (r, ([] : Bytes))).map Prod.fst = rs := by
    rw [List.map_map]
    exact List.map_id rs
  have hloose : ∀ x ∈ rs.map fun r => (r, ([] : Bytes)), LooseFits x := by
    intro x hx
    obtain ⟨r, hr, rfl⟩ := List.mem_map.mp hx
    exact looseFits_nil.mpr (hrs r hr)
  have hslack : ∀ x ∈ rs.map fun r => (r, ([] : Bytes)), x.2 = [] := by
    intro x hx
    obtain ⟨r, -, rfl⟩ := List.mem_map.mp hx
    rfl
  have hread : replay hash (looseLogOf hash (rs.map fun r => (r, [])) ++
      tail) = _ := replay_looseLogOf_append hloose tail
  rwa [looseLogOf_eq_logOf hslack, hmap] at hread

theorem replay_torn {r : Record} (hr : r.Fits) {t : Bytes}
    (ht : t <+: r.encode hash) (hne : t ≠ r.encode hash) :
    replay hash t = .ok [] := by
  rw [replay_eq, readFrame_torn hr ht hne]

theorem replay_logOf {rs : List Record} (hrs : ∀ r ∈ rs, r.Fits) :
    replay hash (logOf hash rs) = .ok rs := by
  have hnil : replay hash [] = .ok [] := rfl
  rw [← List.append_nil (logOf hash rs), replay_logOf_append hrs, hnil]
  simp [Except.map]

/-- Any file is a sequence of accepted frames, up to bytes that begin with
none. -/
theorem exists_looseLog (hash : Bytes → UInt32) (s : Bytes) :
    ∃ xs rest, s = looseLogOf hash xs ++ rest ∧ (∀ x ∈ xs, LooseFits x) ∧
      ∀ r later, readFrame hash rest ≠ .record r later := by
  induction hlen : s.length using Nat.strong_induction_on generalizing s with
  | _ n ih =>
      have hview : FrameView hash s (readFrame hash s) := readFrame_view s
      generalize hframe : readFrame hash s = result at hview
      have hstops : (∀ r later, result ≠ .record r later) →
          ∃ xs rest, s = looseLogOf hash xs ++ rest ∧
            (∀ x ∈ xs, LooseFits x) ∧
              ∀ r later, readFrame hash rest ≠ .record r later := by
        intro hne
        exact ⟨[], s, rfl, by simp, hframe ▸ hne⟩
      cases hview with
      | record hx =>
          rename_i x later
          have hshorter := readFrame_shorter hframe
          obtain ⟨xs, rest, rfl, hxs, hrest⟩ := ih _ (hlen ▸ hshorter) later
            rfl
          refine ⟨x :: xs, rest, ?_, List.forall_mem_cons.mpr ⟨hx, hxs⟩,
            hrest⟩
          rw [looseLogOf_cons, List.append_assoc]
      | unfinished h => exact hstops nofun
      | headless hn hrest => exact hstops nofun
      | mismatch hp hne => exact hstops nofun
      | overrun hp hover => exact hstops nofun
      | invalidOp hp hop => exact hstops nofun

end Lsmrs
