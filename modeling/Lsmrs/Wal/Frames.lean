import Lsmrs.Wal.Log

/-!
# The frames of a log file

What replay makes of the bytes at a frame, whoever wrote them.  A complete
frame is accepted when its checksum is right, its fields lie inside its
payload and its last field is an operation; bytes behind the last field go
unnoticed.
-/

namespace Lsmrs

open ByteString

variable {hash : Bytes → UInt32}

/-! ## Fields of a payload -/

@[simp] theorem payload_length (key value : Bytes) (op : Operation) :
    (payload key value op).length = key.length + value.length + 9 := by
  simp [payload]
  omega

theorem tryFrom_toU8 (op : Operation) :
    Operation.tryFrom op.toU8 = .ok op := by
  cases op <;> rfl

/-- The length prefixes of a payload, read where `parse_record` reads
them. -/
def keyLength (p : Bytes) : ℕ :=
  fromLeBytes (p.take 4)

def valueLength (p : Bytes) : ℕ :=
  fromLeBytes ((p.drop (4 + keyLength p)).take 4)

/-- The payload ends before its fields do. -/
def Overruns (p : Bytes) : Prop :=
  p.length < 9 + keyLength p + valueLength p

instance (p : Bytes) : Decidable (Overruns p) := by
  unfold Overruns
  infer_instance

/-- The fields of a payload, with any byte for the operation. -/
def fields (key value : Bytes) (op : UInt8) : Bytes :=
  toLeBytes 4 key.length ++ (key ++ (toLeBytes 4 value.length ++
    (value ++ [op])))

theorem payload_eq_fields (key value : Bytes) (op : Operation) :
    payload key value op = fields key value op.toU8 := rfl

@[simp] theorem fields_length (key value : Bytes) (op : UInt8) :
    (fields key value op).length = key.length + value.length + 9 := by
  simp [fields]
  omega

/-- Fields that lie inside a payload are parsed, whatever stands behind
them. -/
theorem parseRecord_fields {key value : Bytes} (op : UInt8)
    (hkey : key.length < 256 ^ 4) (hvalue : value.length < 256 ^ 4)
    (slack : Bytes) :
    parseRecord (fields key value op ++ slack) =
      (Operation.tryFrom op).map fun operation =>
        ⟨key, value, operation⟩ := by
  let p := fields key value op ++ slack
  have hp : p = toLeBytes 4 key.length ++ (key ++
      (toLeBytes 4 value.length ++ (value ++ op :: slack))) := by
    simp [p, fields]
  have hlen : slice p 0 4 = .ok (toLeBytes 4 key.length) := by
    rw [hp, ← List.nil_append (toLeBytes 4 key.length ++ _)]
    exact slice_append rfl (by simp)
  have hk : slice p 4 (4 + key.length) = .ok key := by
    rw [hp]
    exact slice_append (toLeBytes_length 4 _) rfl
  have hvlen : slice p (4 + key.length) (4 + key.length + 4) =
      .ok (toLeBytes 4 value.length) := by
    rw [hp, ← List.append_assoc]
    exact slice_append (by simp) (by simp)
  have hv : slice p (4 + key.length + 4)
      (4 + key.length + 4 + value.length) = .ok value := by
    rw [hp, ← List.append_assoc, ← List.append_assoc]
    exact slice_append (by simp; omega) rfl
  have hop : index p (4 + key.length + 4 + value.length) = .ok op := by
    rw [hp, ← List.append_assoc, ← List.append_assoc, ← List.append_assoc]
    exact index_append (by simp; omega)
  change parseRecord p = _
  simp only [parseRecord, hlen, fromLeBytes_toLeBytes_of_lt hkey, hk, hvlen,
    fromLeBytes_toLeBytes_of_lt hvalue, hv, hop, ok_bind]
  cases Operation.tryFrom op <;> rfl

/-- A payload has its fields inside, or ends before they do. -/
theorem overruns_or_fields (p : Bytes) :
    Overruns p ∨ ∃ key value op slack, p = fields key value op ++ slack ∧
      key.length < 256 ^ 4 ∧ value.length < 256 ^ 4 := by
  by_cases hover : Overruns p
  · exact Or.inl hover
  · right
    rw [Overruns, not_lt] at hover
    -- Cut the payload at the ends of its fields.
    let p₁ := p.drop 4
    let p₂ := p₁.drop (keyLength p)
    let p₃ := p₂.drop 4
    let p₄ := p₃.drop (valueLength p)
    have hdrop : p.drop (4 + keyLength p) = p₂ := by
      rw [← List.drop_drop]
    have hvalueLength : fromLeBytes (p₂.take 4) = valueLength p := by
      rw [valueLength, hdrop]
    have hkeyLen : (p₁.take (keyLength p)).length = keyLength p := by
      simp [p₁]
      omega
    have hvalueLen : (p₃.take (valueLength p)).length = valueLength p := by
      simp [p₁, p₂, p₃]
      omega
    have hhead : (p.take 4).length = 4 := by
      simp
      omega
    have hmid : (p₂.take 4).length = 4 := by
      simp [p₁, p₂]
      omega
    have hfour : 0 < p₄.length := by
      simp [p₁, p₂, p₃, p₄]
      omega
    obtain ⟨op, slack, hlast⟩ := List.exists_cons_of_length_pos hfour
    refine ⟨p₁.take (keyLength p), p₃.take (valueLength p), op, slack, ?_,
      ?_, ?_⟩
    · have hkeyBytes : toLeBytes 4 (keyLength p) = p.take 4 := by
        have hback := toLeBytes_fromLeBytes (p.take 4)
        rwa [hhead] at hback
      have hvalueBytes : toLeBytes 4 (valueLength p) = p₂.take 4 := by
        have hback := toLeBytes_fromLeBytes (p₂.take 4)
        rwa [hmid, hvalueLength] at hback
      rw [fields, hkeyLen, hvalueLen, hkeyBytes, hvalueBytes]
      simp only [List.append_assoc, List.singleton_append, ← hlast]
      rw [List.take_append_drop, List.take_append_drop,
        List.take_append_drop, List.take_append_drop]
    · have hlt := fromLeBytes_lt (p.take 4)
      rw [hhead] at hlt
      rwa [hkeyLen]
    · have hlt := fromLeBytes_lt (p₂.take 4)
      rw [hmid, hvalueLength] at hlt
      rwa [hvalueLen]

theorem slice_of_lt {bytes : Bytes} {start stop : ℕ}
    (h : bytes.length < stop) : slice bytes start stop = .error .panic := by
  rw [slice, if_neg]
  rintro ⟨-, hle⟩
  omega

theorem slice_of_le {bytes : Bytes} {start stop : ℕ} (hle : start ≤ stop)
    (h : stop ≤ bytes.length) :
    slice bytes start stop = .ok ((bytes.drop start).take (stop - start)) := by
  rw [slice, if_pos ⟨hle, h⟩]

theorem error_bind {α β : Type} (e : Failure) (f : α → Result β) :
    ((.error e : Result α) >>= f) = .error e := rfl

/-- `parse_record` indexes past the end of a payload that ends before its
fields do. -/
theorem parseRecord_overrun {p : Bytes} (h : Overruns p) :
    parseRecord p = .error .panic := by
  rw [Overruns] at h
  rw [parseRecord]
  by_cases hhead : p.length < 4
  · rw [slice_of_lt hhead, error_bind]
  rw [not_lt] at hhead
  have hkeyLength : fromLeBytes ((p.drop 0).take (4 - 0)) = keyLength p :=
    rfl
  rw [slice_of_le (Nat.zero_le 4) hhead, ok_bind]
  dsimp only
  rw [hkeyLength]
  by_cases hkey : p.length < 4 + keyLength p
  · rw [slice_of_lt hkey, error_bind]
  rw [not_lt] at hkey
  rw [slice_of_le (Nat.le_add_right _ _) hkey, ok_bind]
  by_cases hmid : p.length < 4 + keyLength p + 4
  · rw [slice_of_lt hmid, error_bind]
  rw [not_lt] at hmid
  have hvalueLength : fromLeBytes ((p.drop (4 + keyLength p)).take
      (4 + keyLength p + 4 - (4 + keyLength p))) = valueLength p := by
    rw [Nat.add_sub_cancel_left, valueLength]
  rw [slice_of_le (Nat.le_add_right _ _) hmid, ok_bind, hvalueLength]
  by_cases hvalue : p.length < 4 + keyLength p + 4 + valueLength p
  · rw [slice_of_lt hvalue, error_bind]
  rw [not_lt] at hvalue
  rw [slice_of_le (Nat.le_add_right _ _) hvalue, ok_bind]
  have hnone : p[4 + keyLength p + 4 + valueLength p]? = none := by
    rw [List.getElem?_eq_none_iff]
    omega
  rw [index, hnone]
  rfl

/-! ## One frame -/

/-- A complete frame: its header, a checksum and a payload. -/
def frameWith (checksum : UInt32) (p : Bytes) : Bytes :=
  toLeBytes 4 (crcSize + p.length) ++ (toLeBytes 4 checksum.toNat ++ p)

/-- A complete frame with the right checksum. -/
def frame (hash : Bytes → UInt32) (p : Bytes) : Bytes :=
  frameWith (hash p) p

/-- The header of a frame can announce the payload. -/
def Announced (p : Bytes) : Prop :=
  crcSize + p.length < 2 ^ 32

/-- The bytes end before the frame their header announces, or inside the
header. -/
def Unfinished (s : Bytes) : Prop :=
  s.length < 4 ∨ s.length < 4 + fromLeBytes (s.take 4)

instance (s : Bytes) : Decidable (Unfinished s) := by
  unfold Unfinished
  infer_instance

theorem frameWith_append (checksum : UInt32) (p rest : Bytes) :
    frameWith checksum p ++ rest = toLeBytes 4 (crcSize + p.length) ++
      (toLeBytes 4 checksum.toNat ++ (p ++ rest)) := by
  simp [frameWith]

def checksumMismatch : Failure :=
  ioError .invalidData (ascii "Checksum mismatch")

def invalidOperation : Failure :=
  ioError .invalidData (ascii "Invalid operation byte")

theorem readFrame_unfinished {s : Bytes} (h : Unfinished s) :
    readFrame hash s = .stop := by
  rw [readFrame]
  split
  next => rfl
  next header s₁ h₁ =>
  obtain ⟨rfl, hheader⟩ := takeExact_eq_some.mp h₁
  rw [Unfinished, List.take_left' hheader, List.length_append, hheader] at h
  dsimp only
  split_ifs with hlen
  · rfl
  split
  next => rfl
  next checksum s₂ h₂ =>
  obtain ⟨rfl, hchecksum⟩ := takeExact_eq_some.mp h₂
  rw [List.length_append, hchecksum] at h
  have hshort : takeExact (fromLeBytes header - crcSize) s₂ = none := by
    rw [takeExact_eq_none]
    simp only [crcSize] at hlen ⊢
    omega
  rw [hshort]

/-- A header that leaves no room for the checksum stops the replay. -/
theorem readFrame_headless {n : ℕ} (hn : n < crcSize) (rest : Bytes) :
    readFrame hash (toLeBytes 4 n ++ rest) = .stop := by
  have hlt : n < 256 ^ 4 := hn.trans (by decide)
  have hvalue : fromLeBytes (toLeBytes 4 n) = n :=
    fromLeBytes_toLeBytes_of_lt hlt
  rw [readFrame, takeExact_append_of_length (toLeBytes_length 4 n)]
  dsimp only
  rw [hvalue, if_pos hn]

theorem readFrame_frameWith {checksum : UInt32} {p : Bytes}
    (hp : Announced p) (rest : Bytes) :
    readFrame hash (frameWith checksum p ++ rest) =
      if hash p ≠ checksum then .fail checksumMismatch
      else match parseRecord p with
      | .error e => .fail e
      | .ok r => .record r rest := by
  have hvalue : fromLeBytes (toLeBytes 4 (crcSize + p.length)) =
      crcSize + p.length := fromLeBytes_toLeBytes_of_lt hp
  have hchecksum : fromLeBytes (toLeBytes 4 checksum.toNat) =
      checksum.toNat := fromLeBytes_toLeBytes_of_lt checksum.toNat_lt
  have hlen : p.length = crcSize + p.length - crcSize := by omega
  have hge : ¬ crcSize + p.length < crcSize := by omega
  rw [frameWith_append, readFrame,
    takeExact_append_of_length (toLeBytes_length 4 _)]
  dsimp only
  rw [hvalue, if_neg hge, takeExact_append_of_length (toLeBytes_length 4 _)]
  dsimp only
  rw [takeExact_append_of_length hlen]
  dsimp only
  rw [hchecksum]
  simp only [ne_eq, UInt32.toNat_inj]
  rfl

/-- Bytes that are not unfinished begin with a complete frame, or with a
header that leaves no room for the checksum. -/
theorem exists_frame {s : Bytes} (h : ¬ Unfinished s) :
    (∃ n rest, n < crcSize ∧ s = toLeBytes 4 n ++ rest ∧
      n ≤ rest.length) ∨
    ∃ checksum p rest, Announced p ∧
      s = frameWith checksum p ++ rest := by
  rw [Unfinished, not_or, not_lt, not_lt] at h
  obtain ⟨hheader, hlen⟩ := h
  have htake : (s.take 4).length = 4 := by
    simp
    omega
  have hbytes := toLeBytes_fromLeBytes (s.take 4)
  have hlt := fromLeBytes_lt (s.take 4)
  rw [htake] at hbytes hlt
  generalize fromLeBytes (s.take 4) = n at hlen hbytes hlt
  by_cases hn : n < crcSize
  · refine Or.inl ⟨n, s.drop 4, hn, ?_, ?_⟩
    · rw [hbytes, List.take_append_drop]
    · rw [List.length_drop]
      omega
  · right
    rw [crcSize, not_lt] at hn
    let checksumBytes := (s.drop 4).take 4
    let p := ((s.drop 4).drop 4).take (n - 4)
    have hchecksum : checksumBytes.length = 4 := by
      simp [checksumBytes]
      omega
    have hp : p.length = n - 4 := by
      simp [p]
      omega
    have hannounced : crcSize + p.length = n := by
      rw [hp, crcSize]
      omega
    have hback := toLeBytes_fromLeBytes checksumBytes
    have hlt' := fromLeBytes_lt checksumBytes
    rw [hchecksum] at hback hlt'
    refine ⟨UInt32.ofNat (fromLeBytes checksumBytes), p,
      ((s.drop 4).drop 4).drop (n - 4), ?_, ?_⟩
    · rw [Announced, hannounced]
      exact hlt
    · rw [frameWith_append, hannounced, hbytes,
        UInt32.toNat_ofNat_of_lt' hlt', hback, List.take_append_drop,
        List.take_append_drop, List.take_append_drop]

/-- A record's frame, with bytes behind its last field that belong to the
payload. -/
def looseFrame (hash : Bytes → UInt32) (x : Record × Bytes) : Bytes :=
  frame hash (payload x.1.key x.1.value x.1.operation ++ x.2)

/-- The header can announce the record with what stands behind it. -/
def LooseFits (x : Record × Bytes) : Prop :=
  Announced (payload x.1.key x.1.value x.1.operation ++ x.2)

theorem LooseFits.lengths {x : Record × Bytes} (h : LooseFits x) :
    x.1.key.length < 256 ^ 4 ∧ x.1.value.length < 256 ^ 4 := by
  simp only [LooseFits, Announced, List.length_append, payload_length,
    crcSize] at h
  omega

theorem parseRecord_loose {x : Record × Bytes} (hx : LooseFits x) :
    parseRecord (payload x.1.key x.1.value x.1.operation ++ x.2) =
      .ok x.1 := by
  rw [payload_eq_fields, parseRecord_fields _ hx.lengths.1 hx.lengths.2,
    tryFrom_toU8]
  rfl

theorem readFrame_looseFrame {x : Record × Bytes} (hx : LooseFits x)
    (rest : Bytes) :
    readFrame hash (looseFrame hash x ++ rest) = .record x.1 rest := by
  rw [looseFrame, frame, readFrame_frameWith hx, if_neg (not_not.mpr rfl),
    parseRecord_loose hx]

theorem tryFrom_cases (op : UInt8) :
    (∃ operation : Operation, op = operation.toU8 ∧
      Operation.tryFrom op = .ok operation) ∨
    (2 ≤ op ∧ Operation.tryFrom op = .error invalidOperation) := by
  by_cases hzero : op = 0
  · exact Or.inl ⟨.insert, hzero, by rw [hzero]; rfl⟩
  by_cases hone : op = 1
  · exact Or.inl ⟨.delete, hone, by rw [hone]; rfl⟩
  · have hinvalid : Operation.tryFrom op = .error invalidOperation := by
      rw [Operation.tryFrom, if_neg hzero, if_neg hone]
      rfl
    refine Or.inr ⟨?_, hinvalid⟩
    rw [← UInt8.toNat_inj] at hzero hone
    change ¬ op.toNat = 0 at hzero
    change ¬ op.toNat = 1 at hone
    rw [UInt8.le_iff_toNat_le]
    change 2 ≤ op.toNat
    omega

/-- What the bytes at a frame are, and what replay makes of them. -/
inductive FrameView (hash : Bytes → UInt32) : Bytes → Frame → Prop where
  | unfinished {s : Bytes} (h : Unfinished s) : FrameView hash s .stop
  | headless {n : ℕ} {rest : Bytes} (hn : n < crcSize)
      (hrest : n ≤ rest.length) :
    FrameView hash (toLeBytes 4 n ++ rest) .stop
  | mismatch {checksum : UInt32} {p rest : Bytes} (hp : Announced p)
      (hne : hash p ≠ checksum) :
    FrameView hash (frameWith checksum p ++ rest) (.fail checksumMismatch)
  | overrun {p rest : Bytes} (hp : Announced p) (hover : Overruns p) :
    FrameView hash (frame hash p ++ rest) (.fail .panic)
  | invalidOp {key value slack rest : Bytes} {op : UInt8}
      (hp : Announced (fields key value op ++ slack)) (hop : 2 ≤ op) :
    FrameView hash (frame hash (fields key value op ++ slack) ++ rest)
      (.fail invalidOperation)
  | record {x : Record × Bytes} {rest : Bytes} (hx : LooseFits x) :
    FrameView hash (looseFrame hash x ++ rest) (.record x.1 rest)

theorem readFrame_view (s : Bytes) : FrameView hash s (readFrame hash s) := by
  by_cases hs : Unfinished s
  · rw [readFrame_unfinished hs]
    exact .unfinished hs
  rcases exists_frame hs with
    ⟨n, rest, hn, rfl, hrest⟩ | ⟨checksum, p, rest, hp, rfl⟩
  · rw [readFrame_headless hn]
    exact .headless hn hrest
  by_cases hne : hash p ≠ checksum
  · rw [readFrame_frameWith hp, if_pos hne]
    exact .mismatch hp hne
  obtain rfl := not_not.mp hne
  rcases overruns_or_fields p with
    hover | ⟨key, value, op, slack, rfl, hkey, hvalue⟩
  · rw [readFrame_frameWith hp, if_neg hne, parseRecord_overrun hover]
    exact .overrun hp hover
  · rcases tryFrom_cases op with ⟨operation, rfl, -⟩ | ⟨hop, hinvalid⟩
    · have hx : LooseFits (⟨key, value, operation⟩, slack) := hp
      have hread : readFrame hash (looseFrame hash
          (⟨key, value, operation⟩, slack) ++ rest) =
            .record ⟨key, value, operation⟩ rest :=
        readFrame_looseFrame hx rest
      change FrameView hash (looseFrame hash (⟨key, value, operation⟩, slack)
        ++ rest) (readFrame hash (looseFrame hash
          (⟨key, value, operation⟩, slack) ++ rest))
      rw [hread]
      exact .record hx
    · rw [readFrame_frameWith hp, if_neg hne,
        parseRecord_fields op hkey hvalue, hinvalid]
      exact .invalidOp hp hop

end Lsmrs
