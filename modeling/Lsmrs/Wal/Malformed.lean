import Lsmrs.Wal.Replay

/-!
# Malformed logs

When replaying a file panics, and when only truncation is forgiven.  A
payload that its inner lengths overrun is indexed out of bounds, a header
that leaves no room for a checksum ends the replay silently, and bytes behind
the last field of a payload go unnoticed.
-/

namespace Lsmrs

open ByteString

variable {hash : Bytes → UInt32}

/-! ## Panics -/

/-- The call returns, with `Ok` or with `Err`. -/
def Returns {α : Type} (result : Result α) : Prop :=
  (∃ a, result = .ok a) ∨ ∃ e, result = .error (.io e)

theorem returns_iff {α : Type} {result : Result α} :
    Returns result ↔ result ≠ .error .panic := by
  match result with
  | .ok a => exact iff_of_true (Or.inl ⟨a, rfl⟩) nofun
  | .error (.io e) => exact iff_of_true (Or.inr ⟨e, rfl⟩) (by simp)
  | .error .panic =>
      refine iff_of_false ?_ (fun h => h rfl)
      rintro (⟨a, h⟩ | ⟨e, h⟩) <;> cases h

/-- Behind accepted frames comes one with the right checksum whose payload
ends before its fields do. -/
def ReachesOverrun (hash : Bytes → UInt32) (file : Bytes) : Prop :=
  ∃ xs p rest, file = looseLogOf hash xs ++ (frame hash p ++ rest) ∧
    (∀ x ∈ xs, LooseFits x) ∧ Announced p ∧ Overruns p

theorem readFrame_overrun {p : Bytes} (hp : Announced p) (hover : Overruns p)
    (rest : Bytes) : readFrame hash (frame hash p ++ rest) = .fail .panic := by
  rw [frame, readFrame_frameWith hp, if_neg (not_not.mpr rfl),
    parseRecord_overrun hover]

theorem replay_eq_panic_iff {file : Bytes} :
    replay hash file = .error .panic ↔ ReachesOverrun hash file := by
  constructor
  · intro h
    obtain ⟨xs, rest, rfl, hxs, hrest⟩ := exists_looseLog hash file
    rw [replay_looseLogOf_append hxs, replay_eq] at h
    have hview : FrameView hash rest (readFrame hash rest) :=
      readFrame_view rest
    generalize readFrame hash rest = result at h hrest hview
    cases hview with
    | overrun hp hover => exact ⟨xs, _, _, rfl, hxs, hp, hover⟩
    | unfinished _ => cases h
    | headless _ _ => cases h
    | mismatch _ _ => cases h
    | invalidOp _ _ => cases h
    | record _ => exact absurd rfl (hrest _ _)
  · rintro ⟨xs, p, rest, rfl, hxs, hp, hover⟩
    rw [replay_looseLogOf_append hxs, replay_eq,
      readFrame_overrun hp hover]
    rfl

/-- `Wal::read` ends on every file, and returns just if it reaches no payload
that its inner lengths overrun. -/
theorem read_returns_iff (hash : Bytes → UInt32) (file : Bytes)
    (sync : Bool) :
    ((∀ turns, file.length ≤ turns →
        readLoop hash turns file = (Wal.open file sync).read hash) ∧
      Returns ((Wal.open file sync).read hash)) ↔
      ¬ ReachesOverrun hash file := by
  have hturns : ∀ turns, file.length ≤ turns →
      readLoop hash turns file = (Wal.open file sync).read hash :=
    fun turns hle => readLoop_turns hle
  rw [and_iff_right hturns, returns_iff, ← replay_eq_panic_iff]
  rfl

/-- An empty payload, with the checksum of no bytes. -/
theorem empty_payload_panics :
    ¬ ∀ (file : Bytes) (sync : Bool),
      Returns ((Wal.open file sync).read crc32) := by
  intro hclaim
  have hreturns := hclaim [4, 0, 0, 0, 0, 0, 0, 0] true
  rw [returns_iff] at hreturns
  exact hreturns (by decide +kernel)

/-! ## Truncation -/

/-- A whole frame, as long as its header announces. -/
def Complete (s : Bytes) : Prop :=
  4 ≤ s.length ∧ s.length = 4 + fromLeBytes (s.take 4)

/-- No record is encoded so. -/
def Malformed (hash : Bytes → UInt32) (s : Bytes) : Prop :=
  ∀ r : Record, r.Fits → s ≠ r.encode hash

/-- Behind the frames of records comes a whole frame that is malformed. -/
def HasMalformed (hash : Bytes → UInt32) (file : Bytes) : Prop :=
  ∃ rs bad rest, file = logOf hash rs ++ (bad ++ rest) ∧
    (∀ r ∈ rs, r.Fits) ∧ Complete bad ∧ Malformed hash bad

/-- A replay that returns `Ok` has read all frames of the file, up to one
that is cut off, and a whole malformed frame is an error. -/
def ForgivesOnlyTruncation (hash : Bytes → UInt32) (file : Bytes) : Prop :=
  (∀ rs, replay hash file = .ok rs →
    ∃ tail, file = logOf hash rs ++ tail ∧ (∀ r ∈ rs, r.Fits) ∧
      Unfinished tail) ∧
  (HasMalformed hash file → ∃ message,
    replay hash file = .error (ioError .invalidData message))

/-- The bytes begin with a whole frame that has the wrong checksum, or whose
fields lie inside its payload and end with no operation. -/
inductive Rejected (hash : Bytes → UInt32) : Bytes → Prop where
  | mismatch {checksum : UInt32} {p rest : Bytes} (hp : Announced p)
      (hne : hash p ≠ checksum) :
    Rejected hash (frameWith checksum p ++ rest)
  | invalidOp {key value slack rest : Bytes} {op : UInt8}
      (hp : Announced (fields key value op ++ slack)) (hop : 2 ≤ op) :
    Rejected hash (frame hash (fields key value op ++ slack) ++ rest)

/-- The accepted frames have no bytes behind their last fields and the next
one is cut off, or the next one is rejected. -/
def TruncatedOrRejected (hash : Bytes → UInt32) (file : Bytes) : Prop :=
  ∃ xs rest, file = looseLogOf hash xs ++ rest ∧
    (∀ x ∈ xs, LooseFits x) ∧
    ((Unfinished rest ∧ ∀ x ∈ xs, x.2 = []) ∨ Rejected hash rest)

/-! ### Whole frames -/

theorem complete_frameWith {checksum : UInt32} {p : Bytes}
    (hp : Announced p) : Complete (frameWith checksum p) := by
  have hvalue : fromLeBytes (toLeBytes 4 (crcSize + p.length)) =
      crcSize + p.length := fromLeBytes_toLeBytes_of_lt hp
  have hlen : (frameWith checksum p).length = 8 + p.length := by
    simp [frameWith]
    omega
  have hheader : (frameWith checksum p).take 4 =
      toLeBytes 4 (crcSize + p.length) :=
    List.take_left' (toLeBytes_length 4 _)
  rw [Complete, hheader, hvalue, hlen, crcSize]
  omega

theorem complete_encode {r : Record} (hr : r.Fits) :
    Complete (r.encode hash) :=
  complete_frameWith hr

/-- Whole frames at the start of the same bytes are the same. -/
theorem Complete.append_inj {a b x y : Bytes} (ha : Complete a)
    (hb : Complete b) (h : a ++ x = b ++ y) : a = b ∧ x = y := by
  have hheader : a.take 4 = b.take 4 := by
    have htake := congrArg (List.take 4) h
    rwa [List.take_append_of_le_length ha.1,
      List.take_append_of_le_length hb.1] at htake
  exact List.append_inj h (by rw [ha.2, hb.2, hheader])

theorem Complete.not_unfinished {a : Bytes} (ha : Complete a)
    (rest : Bytes) : ¬ Unfinished (a ++ rest) := by
  obtain ⟨hle, hlen⟩ := ha
  rw [Unfinished, List.take_append_of_le_length hle, List.length_append]
  omega

/-- Behind the frames of records and a cut off one nothing is malformed. -/
theorem not_hasMalformed {rs : List Record} (hrs : ∀ r ∈ rs, r.Fits)
    {tail : Bytes} (htail : Unfinished tail) :
    ¬ HasMalformed hash (logOf hash rs ++ tail) := by
  rintro ⟨rs', bad, rest, hfile, hrs', hbad, hmalformed⟩
  induction rs generalizing rs' with
  | nil =>
      rw [logOf_nil, List.nil_append] at hfile
      cases rs' with
      | nil =>
          rw [logOf_nil, List.nil_append] at hfile
          exact hbad.not_unfinished rest (hfile ▸ htail)
      | cons r' rs' =>
          have hr' : Complete (r'.encode hash) :=
            complete_encode (hrs' r' List.mem_cons_self)
          rw [logOf_cons, List.append_assoc] at hfile
          exact hr'.not_unfinished _ (hfile ▸ htail)
  | cons r rs ih =>
      obtain ⟨hr, hrs⟩ := List.forall_mem_cons.mp hrs
      have hwhole : Complete (r.encode hash) := complete_encode hr
      rw [logOf_cons, List.append_assoc] at hfile
      cases rs' with
      | nil =>
          rw [logOf_nil, List.nil_append] at hfile
          exact hmalformed r hr (hwhole.append_inj hbad hfile).1.symm
      | cons r' rs' =>
          obtain ⟨hr', hrs'⟩ := List.forall_mem_cons.mp hrs'
          rw [logOf_cons, List.append_assoc] at hfile
          exact ih hrs rs'
            (hwhole.append_inj (complete_encode hr') hfile).2 hrs'

/-! ### Malformed frames -/

theorem frame_injective {p p' : Bytes} (h : frame hash p = frame hash p') :
    p = p' := by
  have hlen := congrArg List.length h
  simp only [frame, frameWith, List.length_append, toLeBytes_length] at hlen
  rw [frame, frame, frameWith, frameWith, ← List.append_assoc,
    ← List.append_assoc] at h
  exact (List.append_inj h (by simp)).2

/-- Bytes behind the last field make a frame no record's. -/
theorem malformed_looseFrame {x : Record × Bytes} (hx : LooseFits x)
    (hslack : x.2 ≠ []) : Malformed hash (looseFrame hash x) := by
  intro r hr heq
  have hpayload := frame_injective heq
  have hparse := parseRecord_loose hx
  rw [hpayload, parseRecord_payload hr] at hparse
  obtain rfl := Except.ok.inj hparse
  exact hslack (List.append_right_eq_self.mp hpayload)

theorem malformed_overrun {p : Bytes} (hover : Overruns p) :
    Malformed hash (frame hash p) := by
  intro r hr heq
  have hparse := parseRecord_overrun hover
  rw [frame_injective heq, parseRecord_payload hr] at hparse
  cases hparse

theorem malformed_headless {n : ℕ} (hn : n < crcSize) (body : Bytes)
    (hbody : body.length = n) :
    Complete (toLeBytes 4 n ++ body) ∧
      Malformed hash (toLeBytes 4 n ++ body) := by
  have hvalue : fromLeBytes (toLeBytes 4 n) = n :=
    fromLeBytes_toLeBytes_of_lt (hn.trans (by decide))
  have hlen : (toLeBytes 4 n ++ body).length = 4 + n := by
    simp [hbody]
  constructor
  · rw [Complete, List.take_left' (toLeBytes_length 4 n), hvalue, hlen]
    omega
  · intro r _ heq
    rw [heq, encode_length] at hlen
    rw [crcSize] at hn
    omega

theorem HasMalformed.cons {x : Record × Bytes} (hx : LooseFits x)
    {s : Bytes} (h : HasMalformed hash s) :
    HasMalformed hash (looseFrame hash x ++ s) := by
  by_cases hslack : x.2 = []
  · obtain ⟨rs, bad, rest, rfl, hrs, hbad⟩ := h
    obtain ⟨r, slack⟩ := x
    obtain rfl : slack = [] := hslack
    refine ⟨r :: rs, bad, rest, ?_,
      List.forall_mem_cons.mpr ⟨looseFits_nil.mp hx, hrs⟩, hbad⟩
    rw [looseFrame_nil, logOf_cons, List.append_assoc]
  · exact ⟨[], looseFrame hash x, s, rfl, by simp, complete_frameWith hx,
      malformed_looseFrame hx hslack⟩

theorem HasMalformed.append {xs : List (Record × Bytes)}
    (hxs : ∀ x ∈ xs, LooseFits x) {s : Bytes} (h : HasMalformed hash s) :
    HasMalformed hash (looseLogOf hash xs ++ s) := by
  induction xs with
  | nil => exact h
  | cons x xs ih =>
      obtain ⟨hx, hxs⟩ := List.forall_mem_cons.mp hxs
      rw [looseLogOf_cons, List.append_assoc]
      exact (ih hxs).cons hx

theorem hasMalformed_of_complete {bad : Bytes} (hbad : Complete bad)
    (hmalformed : Malformed hash bad) (rest : Bytes) :
    HasMalformed hash (bad ++ rest) :=
  ⟨[], bad, rest, rfl, by simp, hbad, hmalformed⟩

theorem hasMalformed_of_slack {xs : List (Record × Bytes)}
    (hxs : ∀ x ∈ xs, LooseFits x) {x : Record × Bytes} (hx : x ∈ xs)
    (hslack : x.2 ≠ []) (rest : Bytes) :
    HasMalformed hash (looseLogOf hash xs ++ rest) := by
  obtain ⟨before, later, rfl⟩ := List.append_of_mem hx
  rw [looseLogOf_append, looseLogOf_cons, List.append_assoc,
    List.append_assoc]
  exact (hasMalformed_of_complete (complete_frameWith (hxs x hx))
    (malformed_looseFrame (hxs x hx) hslack) _).append
      fun y hy => hxs y (List.mem_append_left _ hy)

/-! ### Exactly when only truncation is forgiven -/

theorem readFrame_rejected {s : Bytes} (h : Rejected hash s) :
    ∃ message, readFrame hash s =
      .fail (ioError .invalidData message) := by
  cases h with
  | mismatch hp hne =>
      rw [readFrame_frameWith hp, if_pos hne]
      exact ⟨_, rfl⟩
  | @invalidOp key value slack rest op hp hop =>
      have hlengths : key.length < 256 ^ 4 ∧ value.length < 256 ^ 4 := by
        simp only [Announced, List.length_append, fields_length,
          crcSize] at hp
        omega
      have hinvalid : Operation.tryFrom op = .error invalidOperation := by
        rcases tryFrom_cases op with ⟨operation, rfl, -⟩ | ⟨-, hinvalid⟩
        · cases operation <;> exact absurd hop (by decide)
        · exact hinvalid
      rw [frame, readFrame_frameWith hp, if_neg (not_not.mpr rfl),
        parseRecord_fields op hlengths.1 hlengths.2, hinvalid]
      exact ⟨_, rfl⟩

theorem forgivesOnlyTruncation_of {file : Bytes}
    (h : TruncatedOrRejected hash file) :
    ForgivesOnlyTruncation hash file := by
  obtain ⟨xs, rest, rfl, hxs, ⟨hrest, hslack⟩ | hrest⟩ := h
  · have hfits : ∀ r ∈ xs.map Prod.fst, r.Fits := by
      intro r hr
      obtain ⟨⟨r, slack⟩, hx, rfl⟩ := List.mem_map.mp hr
      obtain rfl : slack = [] := hslack _ hx
      exact looseFits_nil.mp (hxs _ hx)
    have hlog : looseLogOf hash xs = logOf hash (xs.map Prod.fst) :=
      looseLogOf_eq_logOf hslack
    have hreplay : replay hash (looseLogOf hash xs ++ rest) =
        .ok (xs.map Prod.fst) := by
      rw [replay_looseLogOf_append hxs, replay_eq,
        readFrame_unfinished hrest]
      change Except.ok (xs.map Prod.fst ++ []) = _
      rw [List.append_nil]
    constructor
    · intro rs hrs
      rw [hreplay] at hrs
      obtain rfl := Except.ok.inj hrs
      exact ⟨rest, by rw [hlog], hfits, hrest⟩
    · intro hmalformed
      rw [hlog] at hmalformed
      exact absurd hmalformed (not_hasMalformed hfits hrest)
  · obtain ⟨message, hframe⟩ := readFrame_rejected hrest
    have hreplay : replay hash (looseLogOf hash xs ++ rest) =
        .error (ioError .invalidData message) := by
      rw [replay_looseLogOf_append hxs, replay_eq, hframe]
      rfl
    constructor
    · intro rs hrs
      rw [hreplay] at hrs
      cases hrs
    · exact fun _ => ⟨message, hreplay⟩

theorem truncatedOrRejected_of {file : Bytes}
    (h : ForgivesOnlyTruncation hash file) :
    TruncatedOrRejected hash file := by
  obtain ⟨xs, rest, rfl, hxs, hrest⟩ := exists_looseLog hash file
  obtain ⟨-, hmalformed⟩ := h
  rw [replay_looseLogOf_append hxs, replay_eq] at hmalformed
  have hview : FrameView hash rest (readFrame hash rest) :=
    readFrame_view rest
  generalize readFrame hash rest = result at hmalformed hrest hview
  cases hview with
  | unfinished hrest' =>
      refine ⟨xs, rest, rfl, hxs, Or.inl ⟨hrest', ?_⟩⟩
      intro x hx
      by_contra hslack
      obtain ⟨message, herror⟩ :=
        hmalformed (hasMalformed_of_slack hxs hx hslack rest)
      cases herror
  | @headless n rest hn hle =>
      -- The header and the bytes it announces are a frame of their own.
      have hlength : (rest.take n).length = n := List.length_take_of_le hle
      obtain ⟨hbad, hbad'⟩ : Complete (toLeBytes 4 n ++ rest.take n) ∧
          Malformed hash (toLeBytes 4 n ++ rest.take n) :=
        malformed_headless hn _ hlength
      have hhas := (hasMalformed_of_complete hbad hbad'
        (rest.drop n)).append hxs
      rw [List.append_assoc, List.take_append_drop] at hhas
      obtain ⟨message, herror⟩ := hmalformed hhas
      cases herror
  | mismatch hp hne =>
      exact ⟨xs, _, rfl, hxs, Or.inr (.mismatch hp hne)⟩
  | overrun hp hover =>
      obtain ⟨message, herror⟩ := hmalformed
        ((hasMalformed_of_complete (complete_frameWith hp)
          (malformed_overrun hover) _).append hxs)
      cases herror
  | invalidOp hp hop =>
      exact ⟨xs, _, rfl, hxs, Or.inr (.invalidOp hp hop)⟩
  | record _ => exact absurd rfl (hrest _ _)

/-- Just these files are replayed with nothing but a truncation forgiven. -/
theorem forgivesOnlyTruncation_iff (hash : Bytes → UInt32) (file : Bytes) :
    ForgivesOnlyTruncation hash file ↔ TruncatedOrRejected hash file :=
  ⟨truncatedOrRejected_of, forgivesOnlyTruncation_of⟩

/-- Four zero bytes in front of a complete record end the replay with no
record and no error. -/
theorem zero_header_drops_record :
    ¬ ∀ file : Bytes, ForgivesOnlyTruncation crc32 file := by
  intro hclaim
  let r : Record := ⟨ascii "foo", ascii "bar", .insert⟩
  obtain ⟨hok, -⟩ := hclaim (toLeBytes 4 0 ++ r.encode crc32)
  obtain ⟨tail, hfile, -, htail⟩ := hok [] (by decide +kernel)
  rw [logOf_nil, List.nil_append] at hfile
  rw [← hfile] at htail
  exact absurd htail (by decide +kernel)

end Lsmrs
