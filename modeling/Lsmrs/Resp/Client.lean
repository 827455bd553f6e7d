import Lsmrs.Resp.RoundTrip

/-!
# Reading replies

The reply grammar of RESP2 from the client's side, and when it reads back
what `Reply.writeTo` wrote.  A reply is recovered exactly when no line in it
contains the CRLF that ends lines.
-/

namespace Lsmrs

open ByteString

/-! ## The grammar -/

/-- A line up to its first CRLF, and what follows. -/
def readCrlfLine : Bytes → Option (Bytes × Bytes)
  | [] => none
  | b :: rest =>
    if b = cr ∧ rest.head? = some lf then some ([], rest.tail)
    else (readCrlfLine rest).map fun r => (b :: r.1, r.2)

/-- `count` replies in a row. -/
def readItems (read : Bytes → Option (Reply × Bytes)) :
    ℕ → Bytes → Option (List Reply × Bytes)
  | 0, s => some ([], s)
  | count + 1, s => do
    let (item, s) ← read s
    let (items, s) ← readItems read count s
    some (item :: items, s)

/-- The data of a bulk string of the given length, and its CRLF. -/
def readBulk (len : ℕ) (s : Bytes) : Option (Reply × Bytes) := do
  let (bytes, s) ← takeExact len s
  let (terminator, s) ← takeExact 2 s
  if terminator = crlf then some (.bulk bytes, s) else none

/-- One reply with arrays nested at most `fuel` deep. -/
def readReplyWith : ℕ → Bytes → Option (Reply × Bytes)
  | 0, _ => none
  | _, [] => none
  | fuel + 1, marker :: s => do
    let (line, s) ← readCrlfLine s
    if marker = 43 then some (.simple line, s)
    else if marker = 45 then some (.error line, s)
    else if marker = 58 then
      (Decimal.toInt? line).map fun n => (.integer n, s)
    else if marker = 36 then
      if line = ascii "-1" then some (.nil, s)
      else (Decimal.toNat? line).bind fun len => readBulk len s
    else if marker = 42 then do
      let count ← Decimal.toNat? line
      let (items, s) ← readItems (readReplyWith fuel) count s
      some (.array items, s)
    else none

/-- The next reply of a stream. -/
def readReply (s : Bytes) : Option (Reply × Bytes) :=
  readReplyWith (s.length + 1) s

/-- The next `count` replies of a stream. -/
def readReplies (count : ℕ) (s : Bytes) : Option (List Reply × Bytes) :=
  readItems (readReplyWith (s.length + 1)) count s

/-! ## Lines -/

theorem crlf_infix_cons {b : UInt8} {s : Bytes} :
    crlf <:+: b :: s ↔ (b = cr ∧ s.head? = some lf) ∨ crlf <:+: s := by
  rw [List.infix_cons_iff, crlf, List.cons_prefix_cons]
  cases s with
  | nil => simp
  | cons c s => simp [List.cons_prefix_cons, eq_comm]

theorem readCrlfLine_append {text : Bytes} (htext : ¬ crlf <:+: text)
    (rest : Bytes) :
    readCrlfLine (text ++ (crlf ++ rest)) = some (text, rest) := by
  induction text with
  | nil => rfl
  | cons b text ih =>
      obtain ⟨hb, htext⟩ := not_or.mp (crlf_infix_cons.not.mp htext)
      have hnext : ¬ (b = cr ∧ (text ++ (crlf ++ rest)).head? = some lf) := by
        rintro ⟨rfl, hhead⟩
        cases text with
        | nil => exact absurd hhead (by simp [crlf, cr, lf])
        | cons c text => exact hb ⟨rfl, by simpa using hhead⟩
      rw [List.cons_append, readCrlfLine, if_neg hnext, ih htext]
      rfl

/-- A line is cut at a CRLF inside it. -/
theorem readCrlfLine_of_infix {text : Bytes} (htext : crlf <:+: text)
    (rest : Bytes) :
    ∃ before after, text = before ++ (crlf ++ after) ∧
      readCrlfLine (text ++ rest) = some (before, after ++ rest) := by
  induction text with
  | nil => exact absurd htext (by decide)
  | cons b text ih =>
      by_cases hnext : b = cr ∧ text.head? = some lf
      · obtain ⟨rfl, hhead⟩ := hnext
        obtain ⟨text, rfl⟩ : ∃ tail, text = lf :: tail := by
          cases text with
          | nil => cases hhead
          | cons c text =>
              exact ⟨text, by rw [Option.some.inj hhead]⟩
        refine ⟨[], text, rfl, ?_⟩
        simp [readCrlfLine]
      · rcases crlf_infix_cons.mp htext with h | h
        · exact absurd h hnext
        · obtain ⟨before, after, heq, hread⟩ := ih h
          refine ⟨b :: before, after, by rw [heq]; rfl, ?_⟩
          have hnext' : ¬ (b = cr ∧ (text ++ rest).head? = some lf) := by
            rintro ⟨hb, hhead⟩
            refine hnext ⟨hb, ?_⟩
            cases text with
            | nil => exact absurd h (by decide)
            | cons c text => simpa using hhead
          rw [List.cons_append, readCrlfLine, if_neg hnext', hread]
          rfl

theorem crlf_not_infix_of_not_lineEnd {line : Bytes}
    (hline : ∀ b ∈ line, isLineEnd b = false) : ¬ crlf <:+: line := by
  intro h
  have hmem : cr ∈ line := h.subset (by simp [crlf])
  exact absurd (hline cr hmem) (by decide)

theorem crlf_not_infix_ofNat (n : ℕ) : ¬ crlf <:+: Decimal.ofNat n :=
  crlf_not_infix_of_not_lineEnd fun _ hb => isLineEnd_of_mem_ofNat hb

theorem crlf_not_infix_ofInt (n : ℤ) : ¬ crlf <:+: Decimal.ofInt n := by
  apply crlf_not_infix_of_not_lineEnd
  intro b hb
  cases n with
  | ofNat n => exact isLineEnd_of_mem_ofNat hb
  | negSucc n =>
      rcases List.mem_cons.mp hb with rfl | hb
      · decide
      · exact isLineEnd_of_mem_ofNat hb

/-! ## Replies -/

mutual

/-- No line of the reply contains a CRLF. -/
def Reply.LineSafe : Reply → Prop
  | .simple text => ¬ crlf <:+: text
  | .error text => ¬ crlf <:+: text
  | .array items => Reply.ItemsSafe items
  | _ => True

def Reply.ItemsSafe : List Reply → Prop
  | [] => True
  | item :: items => item.LineSafe ∧ Reply.ItemsSafe items

end

mutual

/-- How deep arrays are nested. -/
def Reply.depth : Reply → ℕ
  | .array items => Reply.itemsDepth items + 1
  | _ => 0

def Reply.itemsDepth : List Reply → ℕ
  | [] => 0
  | item :: items => max item.depth (Reply.itemsDepth items)

end

mutual

theorem Reply.depth_lt_length (r : Reply) :
    r.depth < r.writeTo.length := by
  match r with
  | .simple _ | .error _ | .integer _ | .bulk _ | .nil =>
      simp [Reply.depth, Reply.writeTo, ascii]
  | .array items =>
      have hitems := Reply.itemsDepth_le_length items
      simp [Reply.depth, Reply.writeTo, crlf, ascii]
      omega

theorem Reply.itemsDepth_le_length (items : List Reply) :
    Reply.itemsDepth items ≤ (Reply.writeItems items).length := by
  match items with
  | [] => simp [Reply.itemsDepth]
  | item :: items =>
      have hitem := Reply.depth_lt_length item
      have hitems := Reply.itemsDepth_le_length items
      simp only [Reply.itemsDepth, Reply.writeItems, List.length_append]
      omega

end

theorem readBulk_append (bytes rest : Bytes) :
    readBulk bytes.length (bytes ++ (crlf ++ rest)) =
      some (.bulk bytes, rest) := by
  have hcrlf : takeExact 2 (crlf ++ rest) = some (crlf, rest) := by
    have hlen : crlf.length = 2 := rfl
    exact takeExact_append_of_length hlen rest
  simp [readBulk, takeExact_append, hcrlf]

mutual

theorem readReplyWith_writeTo (r : Reply) (hr : r.LineSafe)
    {fuel : ℕ} (hfuel : r.depth < fuel) (rest : Bytes) :
    readReplyWith fuel (r.writeTo ++ rest) = some (r, rest) := by
  obtain ⟨fuel, rfl⟩ : ∃ n, fuel = n + 1 := ⟨fuel - 1, by omega⟩
  match r with
  | .simple text =>
      have hsplit : (Reply.simple text).writeTo ++ rest =
          43 :: (text ++ (crlf ++ rest)) := by
        simp [Reply.writeTo, ascii]
      rw [hsplit, readReplyWith, readCrlfLine_append hr]
      rfl
  | .error text =>
      have hsplit : (Reply.error text).writeTo ++ rest =
          45 :: (text ++ (crlf ++ rest)) := by
        simp [Reply.writeTo, ascii]
      rw [hsplit, readReplyWith, readCrlfLine_append hr]
      rfl
  | .integer n =>
      have hsplit : (Reply.integer n).writeTo ++ rest =
          58 :: (Decimal.ofInt n ++ (crlf ++ rest)) := by
        simp [Reply.writeTo, ascii]
      rw [hsplit, readReplyWith, readCrlfLine_append (crlf_not_infix_ofInt n)]
      simp [Decimal.toInt?_ofInt]
  | .nil =>
      have hsplit : Reply.nil.writeTo ++ rest =
          36 :: (ascii "-1" ++ (crlf ++ rest)) := by
        simp [Reply.writeTo, ascii, crlf, cr, lf]
      rw [hsplit, readReplyWith, readCrlfLine_append (by decide)]
      rfl
  | .bulk bytes =>
      have hsplit : (Reply.bulk bytes).writeTo ++ rest =
          36 :: (Decimal.ofNat bytes.length ++
            (crlf ++ (bytes ++ (crlf ++ rest)))) := by
        simp [Reply.writeTo, ascii]
      have hlen : Decimal.ofNat bytes.length ≠ ascii "-1" :=
        Decimal.ofNat_ne_cons (by decide) _
      rw [hsplit, readReplyWith, readCrlfLine_append (crlf_not_infix_ofNat _)]
      simp [hlen, Decimal.toNat?_ofNat, readBulk_append]
  | .array items =>
      have hsplit : (Reply.array items).writeTo ++ rest =
          42 :: (Decimal.ofNat items.length ++
            (crlf ++ (Reply.writeItems items ++ rest))) := by
        simp [Reply.writeTo, ascii]
      have hdepth : Reply.itemsDepth items < fuel := by
        simp only [Reply.depth] at hfuel
        omega
      rw [hsplit, readReplyWith, readCrlfLine_append (crlf_not_infix_ofNat _)]
      simp [Decimal.toNat?_ofNat,
        readItems_writeItems items hr hdepth rest]

theorem readItems_writeItems (items : List Reply)
    (hitems : Reply.ItemsSafe items)
    {fuel : ℕ} (hfuel : Reply.itemsDepth items < fuel) (rest : Bytes) :
    readItems (readReplyWith fuel) items.length
        (Reply.writeItems items ++ rest) =
      some (items, rest) := by
  match items with
  | [] => rfl
  | item :: items =>
      simp only [Reply.itemsDepth] at hfuel
      obtain ⟨hitem, hitems⟩ := hitems
      have hhead : item.depth < fuel := by omega
      have htail : Reply.itemsDepth items < fuel := by omega
      rw [Reply.writeItems, List.append_assoc, List.length_cons, readItems,
        readReplyWith_writeTo item hitem hhead]
      simp [readItems_writeItems items hitems htail rest]

end

/-- An error line with a CRLF in it is read as a shorter error, and the rest
of the line is left in the stream. -/
theorem readReplyWith_error_of_infix {text : Bytes}
    (htext : crlf <:+: text) (fuel : ℕ) (rest : Bytes) :
    ∃ before after, text = before ++ (crlf ++ after) ∧
      readReplyWith (fuel + 1) ((Reply.error text).writeTo ++ rest) =
        some (.error before, after ++ (crlf ++ rest)) := by
  obtain ⟨before, after, heq, hread⟩ :=
    readCrlfLine_of_infix htext (crlf ++ rest)
  refine ⟨before, after, heq, ?_⟩
  have hsplit : (Reply.error text).writeTo ++ rest =
      45 :: (text ++ (crlf ++ rest)) := by
    simp [Reply.writeTo, ascii]
  rw [hsplit, readReplyWith, hread]
  rfl

end Lsmrs
