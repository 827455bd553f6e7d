import Lsmrs.Cli.Repl

/-!
# Dialogues with the shell

What a session of the shell says, in terms of the texts that are typed:
the database keeps texts under texts, `SCAN` shows those that were typed since
the last flush, and a call that fails may have had its effect.
-/

namespace Lsmrs

open ByteString OrderedMap

/-! ## Notes -/

/-- What a database of texts says: the texts it keeps under texts, and the
texts that were written to since the last flush. -/
structure Notes where
  text : Text → Option Text
  recent : Set Text

/-- Nothing was ever written. -/
def Notes.blank : Notes := ⟨fun _ => none, ∅⟩

/-- A text is written, or struck out, under another; the call may flush. -/
inductive Notes.Writes (n : Notes) (key : Text) (value : Option Text) :
    Notes → Prop
  | kept :
    Writes n key value
      ⟨Function.update n.text key value, insert key n.recent⟩
  | flushed : Writes n key value ⟨Function.update n.text key value, ∅⟩

/-- A call that fails has had its effect or not. -/
def Notes.MayWrite (n : Notes) (key : Text) (value : Option Text)
    (n' : Notes) : Prop :=
  n' = n ∨ n.Writes key value n'

/-- The lines of `SCAN`. -/
def Notes.listing (entries : List (Text × Text)) : Text :=
  if entries = [] then "(empty)".toList
  else ['\n'].intercalate (entries.map fun e => e.1 ++ ' ' :: e.2)

/-- What the words of a line may do to the notes, and what is said. -/
inductive Says (n : Notes) : List Text → Printed → Notes → Prop
  | found {key value : Text} {more : List Text}
      (hvalue : n.text key = some value) :
    Says n ("GET".toList :: key :: more) (.out (Utf8.encode value)) n
  | notFound {key : Text} {more : List Text} (hnone : n.text key = none) :
    Says n ("GET".toList :: key :: more) (.out (ascii "(not found)")) n
  | getFails {key : Text} {more : List Text} (e : IoError) :
    Says n ("GET".toList :: key :: more)
      (.err (ascii "error: " ++ (DbError.io e).display)) n
  | put {key value : Text} {more : List Text} {n' : Notes}
      (hwrites : n.Writes key (some value) n') :
    Says n ("PUT".toList :: key :: value :: more) (.out (ascii "OK")) n'
  | putFails {key value : Text} {more : List Text} {n' : Notes} (e : IoError)
      (hmay : n.MayWrite key (some value) n') :
    Says n ("PUT".toList :: key :: value :: more)
      (.err (ascii "error: " ++ (DbError.io e).display)) n'
  | del {key : Text} {more : List Text} {n' : Notes}
      (hwrites : n.Writes key none n') :
    Says n ("DEL".toList :: key :: more) (.out (ascii "OK")) n'
  | delFails {key : Text} {more : List Text} {n' : Notes} (e : IoError)
      (hmay : n.MayWrite key none n') :
    Says n ("DEL".toList :: key :: more)
      (.err (ascii "error: " ++ (DbError.io e).display)) n'
  | scan {more : List Text} {entries : List (Text × Text)}
      (hentries : ∀ key value, (key, value) ∈ entries ↔
        key ∈ n.recent ∧ n.text key = some value)
      (hascending : entries.Pairwise fun e e' =>
        Utf8.encode e.1 < Utf8.encode e'.1) :
    Says n ("SCAN".toList :: more)
      (.out (Utf8.encode (Notes.listing entries))) n

/-- What the shell does on one input: whether it goes on, and what it
prints. -/
inductive Responds (n : Notes) : Input → Bool → List Printed → Notes → Prop
  | blank {line : Text}
      (hline : Words.Spaced Text.isWhitespace line []) :
    Responds n (.line line) true [] n
  | said {line : Text} {ws : List Text} {out : Printed} {n' : Notes}
      (hline : Words.Spaced Text.isWhitespace line ws)
      (hspoken : Says n ws out n') :
    Responds n (.line line) true [out] n'
  | refused {line : Text} {ws : List Text} {text : Text}
      (hline : Words.Spaced Text.isWhitespace line ws)
      (hrefused : Refused ws text) :
    Responds n (.line line) true
      [.err (ascii "error: " ++ (DbError.invalidCommand text).display)] n
  | exit {line : Text} {more : List Text}
      (hline : Words.Spaced Text.isWhitespace line
        ("EXIT".toList :: more)) :
    Responds n (.line line) false [] n
  | interrupted : Responds n .interrupted false [] n
  | eof : Responds n .eof false [] n
  | failed {message : Bytes} :
    Responds n (.failed message) false
      [.err (ascii "readline error: " ++ message)] n

/-- A session: it ends where the shell stops, or waits for more. -/
inductive Dialogue : Notes → List Input → List Printed → Notes → Prop
  | waits {n : Notes} : Dialogue n [] [] n
  | goesOn {n n₁ n' : Notes} {input : Input} {inputs : List Input}
      {printed later : List Printed}
      (hresponds : Responds n input true printed n₁)
      (hrest : Dialogue n₁ inputs later n') :
    Dialogue n (input :: inputs) (printed ++ later) n'
  | stops {n n' : Notes} {input : Input} {inputs : List Input}
      {printed : List Printed}
      (hresponds : Responds n input false printed n') :
    Dialogue n (input :: inputs) printed n'

/-! ## Notes in a database -/

section Holds

variable {F : Format}

/-- The map has the bytes of texts under the bytes of texts, and nothing
else. -/
structure Encodes (map : Bytes → Option Bytes) (text : Text → Option Text) :
    Prop where
  values : ∀ key, map (Utf8.encode key) = (text key).map Utf8.encode
  keys : ∀ {key value}, map key = some value → ∃ t, key = Utf8.encode t

theorem encodes_none : Encodes (fun _ => none) fun _ => none :=
  ⟨fun _ => rfl, nofun⟩

theorem Encodes.update {map : Bytes → Option Bytes}
    {text : Text → Option Text} (h : Encodes map text) (key : Text)
    (value : Option Text) :
    Encodes (Function.update map (Utf8.encode key)
      (value.map Utf8.encode)) (Function.update text key value) where
  values := by
    intro t
    by_cases hkey : t = key
    · subst hkey
      simp only [Function.update_self]
    · have hne : Utf8.encode t ≠ Utf8.encode key :=
        fun heq => hkey (Utf8.encode_injective heq)
      rw [Function.update_of_ne hne, Function.update_of_ne hkey, h.values]
  keys := by
    intro k v hk
    by_cases hkey : k = Utf8.encode key
    · exact ⟨key, hkey⟩
    · rw [Function.update_of_ne hkey] at hk
      exact h.keys hk

/-- What is there is a text under a text. -/
theorem Encodes.eq_some {map : Bytes → Option Bytes}
    {text : Text → Option Text} (h : Encodes map text) {key value : Bytes} :
    map key = some value ↔ ∃ t v, key = Utf8.encode t ∧
      value = Utf8.encode v ∧ text t = some v := by
  constructor
  · intro hmap
    obtain ⟨t, rfl⟩ := h.keys hmap
    rw [h.values] at hmap
    obtain ⟨v, hv, rfl⟩ := Option.map_eq_some_iff.mp hmap
    exact ⟨t, v, rfl, rfl, hv⟩
  · rintro ⟨t, v, rfl, rfl, hv⟩
    rw [h.values, hv]
    rfl

/-- The texts that have an entry in the memtable. -/
def Recent (map : Memtable) (recent : Set Text) : Prop :=
  ∀ key, key ∈ recent ↔ (map.get? (Utf8.encode key)).isSome

theorem recent_empty : Recent OrderedMap.empty ∅ := by
  intro key
  rw [get?_empty]
  exact iff_of_false id nofun

theorem Recent.insert {map : Memtable} {recent : Set Text}
    (h : Recent map recent) (key : Text) (value : Option Bytes) :
    Recent (map.insert (Utf8.encode key) value) (insert key recent) := by
  intro t
  rw [Set.mem_insert_iff, h, get?_insert]
  split_ifs with hkey
  · exact iff_of_true (Or.inl (Utf8.encode_injective hkey).symm) rfl
  · constructor
    · rintro (rfl | hmem)
      · exact absurd rfl hkey
      · exact hmem
    · exact Or.inr

/-- The database holds the notes. -/
structure Process.Holds (p : Process F) (n : Notes) : Prop where
  reads : ∃ map, (∀ key, p.db.get key = .ok (map key)) ∧ Encodes map n.text
  recent : Recent p.db.map n.recent

end Holds

end Lsmrs
