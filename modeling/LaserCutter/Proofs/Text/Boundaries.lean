import LaserCutter.Text.Utf8

/-!
# Where text may be cut

Text in UTF-8 is a sequence of characters, and the bytes after a lead byte are no ASCII bytes. So
what stands before an ASCII byte and what stands behind it are text again (`Encoded.cut`); in
particular the lines of a text are.
-/

namespace LaserCutter.Text

/-- The bytes are the characters of a text, one after the other. -/
inductive Encoded : List UInt8 → Prop where
  | nil : Encoded []
  | cons {b : UInt8} {bytes rest : List UInt8} {c : Char} (first : character b bytes = .ok (c, rest))
      (more : Encoded rest) : Encoded (b :: bytes)

/-- The bytes that follow a lead byte are taken from the front, whatever stands behind them. -/
theorem follow_eq_ok {value taken v : Nat} {ranges : List ByteRange} {bytes rest : List UInt8}
    (followed : follow value taken ranges bytes = .ok (v, rest))
    (high : ∀ range ∈ ranges, 0x80 ≤ range.1) :
    ∃ used, bytes = used ++ rest ∧ used.length = ranges.length ∧ (∀ u ∈ used, 0x80 ≤ u.toNat) ∧
      ∀ behind, follow value taken ranges (used ++ behind) = .ok (v, behind) := by
  induction ranges generalizing value taken bytes with
  | nil =>
    cases followed
    exact ⟨[], rfl, rfl, by simp, fun behind => rfl⟩
  | cons range ranges ih =>
    cases bytes with
    | nil => contradiction
    | cons b bytes =>
      rw [follow] at followed
      split at followed
      · rename_i within
        obtain ⟨used, split, length, above, local_⟩ :=
          ih followed fun range member => high range (List.mem_cons_of_mem _ member)
        have first := high range List.mem_cons_self
        refine ⟨b :: used, by rw [split]; rfl, by simp [length], ?_, fun behind => ?_⟩
        · rw [List.forall_mem_cons]
          exact ⟨Nat.le_trans first within.1, above⟩
        · rw [List.cons_append, follow, if_pos within]
          exact local_ behind
      · contradiction

/-- Lead bytes call for bytes beyond ASCII, and an ASCII byte calls for none. -/
theorem ranges_of_lead? {b value : Nat} {ranges : List ByteRange}
    (lead : lead? b = some (value, ranges)) :
    (∀ range ∈ ranges, 0x80 ≤ range.1) ∧ (b < 0x80 → ranges = []) := by
  unfold lead? at lead
  split at lead
  · cases lead
    simp
  · refine ⟨?_, fun ascii => by contradiction⟩
    simp only [continuation] at lead
    grind

theorem character_eq_ok {b : UInt8} {bytes rest : List UInt8} {c : Char}
    (first : character b bytes = .ok (c, rest)) :
    ∃ used, bytes = used ++ rest ∧ (∀ u ∈ used, 0x80 ≤ u.toNat) ∧ (b.toNat < 0x80 → used = []) ∧
      ∀ behind, character b (used ++ behind) = .ok (c, behind) := by
  unfold character at first ⊢
  cases lead : lead? b.toNat with
  | none => simp [lead] at first
  | some known =>
    obtain ⟨value, ranges⟩ := known
    obtain ⟨high, ascii⟩ := ranges_of_lead? lead
    simp only [lead] at first ⊢
    cases followed : follow value 1 ranges bytes with
    | error fault =>
      rw [followed] at first
      contradiction
    | ok result =>
      obtain ⟨v, rest'⟩ := result
      rw [followed] at first
      cases first
      obtain ⟨used, split, length, above, local_⟩ := follow_eq_ok followed high
      refine ⟨used, split, above, fun low => ?_, fun behind => by rw [local_ behind]; rfl⟩
      rw [ascii low] at length
      exact List.eq_nil_of_length_eq_zero length

/-- With as many steps as bytes, decoding succeeds exactly on text. -/
theorem decodeFrom_isOk_iff {fuel index : Nat} {seen : List Char} {bytes : List UInt8}
    (enough : bytes.length ≤ fuel) : (decodeFrom fuel index seen bytes).isOk ↔ Encoded bytes := by
  induction fuel generalizing index seen bytes with
  | zero =>
    obtain rfl := List.eq_nil_of_length_eq_zero (Nat.le_zero.mp enough)
    exact ⟨fun _ => .nil, fun _ => rfl⟩
  | succ fuel ih =>
    cases bytes with
    | nil => exact ⟨fun _ => .nil, fun _ => rfl⟩
    | cons b bytes =>
      rw [decodeFrom]
      cases first : character b bytes with
      | error fault =>
        have refused : ¬ Encoded (b :: bytes) := by
          rintro (_ | ⟨other, _⟩)
          rw [first] at other
          contradiction
        cases fault <;> simp [refused, Except.isOk, Except.toBool]
      | ok result =>
        obtain ⟨c, rest⟩ := result
        obtain ⟨used, split, _⟩ := character_eq_ok first
        have fewer : rest.length ≤ fuel := by
          rw [split, List.length_cons, List.length_append] at enough
          omega
        refine (ih fewer).trans ⟨.cons first, ?_⟩
        rintro (_ | ⟨other, more⟩)
        rw [first] at other
        cases other
        exact more

theorem decodeUtf8_isOk_iff (bytes : List UInt8) : (decodeUtf8 bytes).isOk ↔ Encoded bytes := by
  have whole : (decodeFrom bytes.length 0 [] bytes).isOk ↔ Encoded bytes :=
    decodeFrom_isOk_iff (Nat.le_refl bytes.length)
  rw [← whole, decodeUtf8]
  cases decodeFrom bytes.length 0 [] bytes <;> rfl

namespace Encoded

/-- An ASCII byte stands on its own: text may be cut before and behind it. -/
theorem cut {front back : List UInt8} {b : UInt8} (text : Encoded (front ++ b :: back))
    (ascii : b.toNat < 0x80) : Encoded front ∧ Encoded back := by
  generalize whole : front ++ b :: back = bytes at text
  induction text generalizing front with
  | nil => simp at whole
  | @cons lead bytes rest c first more ih =>
    obtain ⟨used, split, above, low, local_⟩ := character_eq_ok first
    cases front with
    | nil =>
      injection whole with same behind
      have rest : rest = back := by
        rw [← behind, low (same ▸ ascii)] at split
        exact split.symm
      exact ⟨.nil, rest ▸ more⟩
    | cons lead' front =>
      injection whole with same behind
      subst same
      -- The bytes that the lead byte calls for end before the ASCII byte.
      obtain ⟨between, rfl, tail⟩ | ⟨beyond, inside, _⟩ :=
        List.append_eq_append_iff.mp (split.symm.trans behind.symm)
      · obtain ⟨before, after⟩ := ih tail.symm
        exact ⟨.cons (local_ between) before, after⟩
      · cases beyond with
        | nil =>
          rw [List.append_nil] at inside
          subst inside
          have start : [] ++ b :: back = rest := by simpa using behind.trans split
          obtain ⟨before, after⟩ := ih start
          exact ⟨.cons (by simpa using local_ []) before, after⟩
        | cons u beyond =>
          rename_i tail
          injection tail with same _
          have high := above u (by rw [inside]; simp)
          rw [← same] at high
          omega

/-- The parts of a text that is cut at an ASCII byte are texts. -/
theorem splitOn {bytes : List UInt8} {b : UInt8} (text : Encoded bytes) (ascii : b.toNat < 0x80) :
    ∀ part ∈ bytes.splitOn b, Encoded part := by
  have whole : [b].intercalate (bytes.splitOn b) = bytes := List.intercalate_splitOn b
  rw [← whole] at text
  generalize bytes.splitOn b = parts at text
  induction parts with
  | nil => simp
  | cons part rest ih =>
    cases rest with
    | nil => simpa using text
    | cons next rest =>
      rw [List.intercalate_cons_cons, List.append_assoc] at text
      obtain ⟨before, after⟩ := text.cut ascii
      rw [List.forall_mem_cons]
      exact ⟨before, ih after⟩

end Encoded

end LaserCutter.Text
