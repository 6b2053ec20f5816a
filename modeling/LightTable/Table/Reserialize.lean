/-
  LightTable.Table.Reserialize
  ────────────────────────────
  Several `serialize` calls, one after the other, on the one global buffer.

  A call starts writing at the front and never writes a NUL, so what an earlier
  call left behind its last byte stays (`SerializeBuff.Over`).  The C string at
  `get_serialed()` is the text of the last call alone exactly when no earlier
  text was longer (`serialize_shows_last_iff`).
-/
import LightTable.Table.Writing
import LightTable.Lib.Run

namespace LightTable

open Fuel

/-! ## §1. Writing over an old text. -/

/-- The bytes that `_add_string_to_buff` leaves written after `text`. -/
def appended : Bytes → Bytes → Bytes
  | text, [] => text
  | text, c :: str => if c ≠ 0 ∧ text.length < bufSize then appended (text ++ [c]) str else text

/-- `text` was written over the bytes `old`. -/
structure SerializeBuff.Over (s : SerializeBuff) (old text : Bytes) : Prop where
  cur : s.cur = text.length
  buff : s.buff = text ++ old.drop text.length
  plain : (0 : UInt8) ∉ text

theorem SerializeBuff.over_start (s : SerializeBuff) :
    ({ s with cur := 0 } : SerializeBuff).Over s.buff [] where
  cur := rfl
  buff := rfl
  plain := fun h => absurd h (by simp)

theorem SerializeBuff.Over.text {s : SerializeBuff} {old text : Bytes} (h : s.Over old text) :
    s.text = text := by
  unfold SerializeBuff.text
  rw [h.buff, h.cur]
  exact List.take_left

/-- One byte goes over the next old one. -/
theorem SerializeBuff.Over.put {s : SerializeBuff} {old text : Bytes} (h : s.Over old text)
    {c : UInt8} (hc : c ≠ 0) : (s.put c).Over old (text ++ [c]) := by
  refine ⟨?_, ?_, ?_⟩
  · show s.cur + 1 = (text ++ [c]).length
    rw [h.cur, List.length_append]
    rfl
  · show s.buff.take s.cur ++ c :: s.buff.drop (s.cur + 1) = _
    have htake : s.buff.take s.cur = text := h.text
    have hdrop : s.buff.drop (s.cur + 1) = old.drop (text.length + 1) := by
      rw [h.buff, h.cur, List.drop_append, List.drop_of_length_le (Nat.le_succ _), List.drop_drop]
      show [] ++ old.drop (text.length + (text.length + 1 - text.length)) = _
      rw [List.nil_append]
      congr 1
      omega
    rw [htake, hdrop, List.append_assoc, List.length_append]
    rfl
  · intro h0
    rcases List.mem_append.mp h0 with h0 | h0
    · exact h.plain h0
    · exact hc (List.mem_singleton.mp h0).symm

/-- What is appended does not depend on the old bytes. -/
theorem SerializeBuff.Over.addString {old : Bytes} (str : Bytes) :
    ∀ {s : SerializeBuff} {text : Bytes}, s.Over old text →
      (s.addString str).Over old (appended text str) := by
  induction str with
  | nil => intro s text h; exact h
  | cons c str ih =>
      intro s text h
      unfold SerializeBuff.addString appended
      rw [h.cur]
      by_cases hc : c ≠ 0 ∧ text.length < bufSize
      · rw [if_pos hc, if_pos hc]
        exact ih (h.put hc.1)
      · rw [if_neg hc, if_neg hc]
        exact h

theorem SerializeBuff.Over.addStrings {old : Bytes} (ps : List Bytes) :
    ∀ {s : SerializeBuff} {text : Bytes}, s.Over old text →
      (s.addStrings ps).Over old (ps.foldl appended text) := by
  induction ps with
  | nil => intro s text h; exact h
  | cons p ps ih =>
      intro s text h
      show ((s.addString p).addStrings ps).Over old (ps.foldl appended (appended text p))
      exact ih (h.addString p)

/-! ## §2. One call. -/

/-- A call of `serialize`, with what the local of its getters holds. -/
structure SerializeCall where
  w : World
  t : Addr
  tmp : Value

/-- The text that the call generates: what it writes when the buffer was never
written before. -/
def SerializeCall.generated (c : SerializeCall) : Option Bytes :=
  (World.doSerialize c.tmp c.w.brk c.t (c.w, .blank)).map (fun x => x.2.text)

/-- Make the call, then look at `get_serialed()`. -/
def SerializeBuff.answer (out : SerializeBuff) (c : SerializeCall) :
    Option (Bytes × SerializeBuff) := do
  let (_, out) ← c.w.serialize c.t c.tmp out
  let shown ← out.getSerialed
  return (shown, out)

/-- `sprintf` never wrote a NUL here, and the last byte of `buff` is free. -/
structure SerializeBuff.Ready (out : SerializeBuff) : Prop where
  plain : (0 : UInt8) ∉ out.buff
  room : out.buff.length < bufSize

theorem SerializeBuff.Ready.getSerialed {out : SerializeBuff} (h : out.Ready) :
    out.getSerialed = some out.buff := by
  unfold SerializeBuff.getSerialed
  rw [if_pos h.room]
  exact cRead_nul h.plain

/-- A call writes its text at the front and leaves the rest as it was. -/
theorem SerializeBuff.Ready.answer {out : SerializeBuff} (h : out.Ready) {c : SerializeCall}
    {text : Bytes} (htext : c.generated = some text) (hfit : text.length < bufSize) :
    ∃ out', out.answer c = some (text ++ out.buff.drop text.length, out') ∧ out'.Ready
      ∧ out'.buff = text ++ out.buff.drop text.length := by
  -- the pieces of the call
  have hrun := World.doSerialize_pieces c.tmp .blank c.w.brk c.t (c.w, [])
  unfold SerializeCall.generated at htext
  have hblank : (c.w, SerializeBuff.blank) = SerializeBuff.blank.write (c.w, []) := rfl
  rw [hblank, hrun, Option.map_map] at htext
  obtain ⟨x, hx, htext⟩ := Option.map_eq_some_iff.mp htext
  have hover₀ := SerializeBuff.blank.over_start.addStrings x.2
  have htext : x.2.foldl appended [] = text := by
    rw [← htext]
    exact hover₀.text.symm
  -- the same pieces over the old bytes
  have hover := out.over_start.addStrings x.2
  rw [htext] at hover
  have hready : (({ out with cur := 0 } : SerializeBuff).addStrings x.2).Ready := by
    refine ⟨?_, ?_⟩
    · rw [hover.buff]
      intro h0
      rcases List.mem_append.mp h0 with h0 | h0
      · exact hover.plain h0
      · exact h.plain (List.mem_of_mem_drop h0)
    · have := h.room
      rw [hover.buff, List.length_append, List.length_drop]
      omega
  have hser : c.w.serialize c.t c.tmp out
      = some (x.1, ({ out with cur := 0 } : SerializeBuff).addStrings x.2) := by
    have hdo := World.doSerialize_pieces c.tmp { out with cur := 0 } c.w.brk c.t (c.w, [])
    rw [hx] at hdo
    have hdo : World.doSerialize c.tmp c.w.brk c.t (c.w, { out with cur := 0 })
        = some (x.1, ({ out with cur := 0 } : SerializeBuff).addStrings x.2) := hdo
    unfold World.serialize
    rw [hdo, Option.bind_eq_bind, Option.bind_some]
    show ((({ out with cur := 0 } : SerializeBuff).addStrings x.2).getSerialed).bind _ = _
    rw [hready.getSerialed]
    rfl
  refine ⟨_, ?_, hready, hover.buff⟩
  unfold SerializeBuff.answer
  rw [hser, Option.bind_eq_bind, Option.bind_some]
  show ((({ out with cur := 0 } : SerializeBuff).addStrings x.2).getSerialed).bind _ = _
  rw [hready.getSerialed, hover.buff]
  rfl

/-! ## §3. Many calls. -/

/-- The text of one call is shown alone when nothing longer was written. -/
theorem text_shown_iff (text old : Bytes) :
    text ++ old.drop text.length = text ↔ old.length ≤ text.length := by
  rw [List.append_right_eq_self, List.drop_eq_nil_iff]

/-- A run over a buffer that holds some old bytes. -/
theorem SerializeBuff.Ready.run (calls : List SerializeCall) :
    ∀ {out : SerializeBuff} {texts : List Bytes}, out.Ready →
      calls.map SerializeCall.generated = texts.map some → (∀ x ∈ texts, x.length < bufSize) →
      ∃ shown out', Run.run SerializeBuff.answer out calls = some (shown, out')
        ∧ (shown = texts ↔ (∀ x ∈ texts, out.buff.length ≤ x.length)
            ∧ texts.Pairwise (fun x y => x.length ≤ y.length)) := by
  induction calls with
  | nil =>
      intro out texts _ hgen _
      cases texts with
      | nil => exact ⟨[], out, rfl, by simp⟩
      | cons x texts => exact absurd hgen (by simp)
  | cons c calls ih =>
      intro out texts h hgen hfit
      cases texts with
      | nil => exact absurd hgen (by simp)
      | cons x texts =>
        rw [List.map_cons, List.map_cons, List.cons.injEq] at hgen
        obtain ⟨out₁, hans, hready, hbuff⟩ := h.answer hgen.1 (hfit x List.mem_cons_self)
        obtain ⟨shown, out', hrun, hiff⟩ :=
          ih hready hgen.2 (fun y hy => hfit y (List.mem_cons_of_mem x hy))
        refine ⟨_ :: shown, out', (Run.run_cons_some _).mpr ⟨_, out₁, shown, hans, hrun, rfl⟩, ?_⟩
        rw [List.cons.injEq, text_shown_iff, List.pairwise_cons, List.forall_mem_cons, hiff]
        constructor
        · intro ⟨hle, hall, hpair⟩
          -- the buffer is the first text now
          rw [hbuff, (text_shown_iff x out.buff).mpr hle] at hall
          exact ⟨⟨hle, fun y hy => Nat.le_trans hle (hall y hy)⟩, hall, hpair⟩
        · intro ⟨⟨hle, _⟩, hall, hpair⟩
          rw [hbuff, (text_shown_iff x out.buff).mpr hle]
          exact ⟨hle, hall, hpair⟩

/-- After every call of a run `get_serialed()` shows the text of that call
alone exactly when no call generates a shorter text than an earlier one. -/
theorem serialize_shows_last_iff {calls : List SerializeCall} {texts : List Bytes}
    (hgen : calls.map SerializeCall.generated = texts.map some)
    (hfit : ∀ x ∈ texts, x.length < bufSize) :
    ∃ shown out, Run.run SerializeBuff.answer .blank calls = some (shown, out)
      ∧ (shown = texts ↔ texts.Pairwise (fun x y => x.length ≤ y.length)) := by
  have hblank : SerializeBuff.blank.Ready := ⟨by simp [SerializeBuff.blank], by decide⟩
  obtain ⟨shown, out, hrun, hiff⟩ := hblank.run calls hgen hfit
  refine ⟨shown, out, hrun, hiff.trans ?_⟩
  constructor
  · intro h
    exact h.2
  · intro h
    exact ⟨fun x _ => Nat.zero_le _, h⟩

/-- `serialize` of a fresh table after setter calls. -/
def callAfter (calls : List SetCall) : Option SerializeCall := do
  let (t, w) ← World.empty.newTable
  let (_, w) ← w.setAll t calls
  return ⟨w, t, .blank⟩

/-- The text of the key `a` with the value `true`. -/
def oneText : Bytes := [123, 91, 34, 97, 34, 93, 32, 61, 32, 116, 114, 117, 101, 44, 10, 125]

/-- An empty table and one with the key `a`. -/
theorem callAfter_texts :
    ∃ c c', callAfter [] = some c ∧ callAfter [⟨.str [97], .boolean 1, .blank⟩] = some c'
      ∧ c.generated = some [123, 125] ∧ c'.generated = some oneText := by
  have hnone : (callAfter []).bind SerializeCall.generated = some [123, 125] := by decide +kernel
  have hone : (callAfter [⟨.str [97], .boolean 1, .blank⟩]).bind SerializeCall.generated
      = some oneText := by decide +kernel
  obtain ⟨c, hc, hgen⟩ := Option.bind_eq_some_iff.mp hnone
  obtain ⟨c', hc', hgen'⟩ := Option.bind_eq_some_iff.mp hone
  exact ⟨c, c', hc, hc', hgen, hgen'⟩

/-- The empty table first. -/
theorem serialize_shows_last_iff_longer :
    ∃ calls shown out, Run.run SerializeBuff.answer .blank calls = some (shown, out)
      ∧ (shown = [[123, 125], oneText]
        ↔ ([[123, 125], oneText] : List Bytes).Pairwise (fun x y => x.length ≤ y.length)) := by
  obtain ⟨c, c', -, -, hgen, hgen'⟩ := callAfter_texts
  have htexts : [c, c'].map SerializeCall.generated = [[123, 125], oneText].map some := by
    rw [List.map_cons, List.map_singleton, hgen, hgen']
    rfl
  obtain ⟨shown, out, hrun, hiff⟩ := serialize_shows_last_iff htexts (by decide)
  exact ⟨[c, c'], shown, out, hrun, hiff⟩

/-- The empty table last: the end of the text before it is still there. -/
theorem serialize_shows_stale :
    ∃ c c' shown out, callAfter [⟨.str [97], .boolean 1, .blank⟩] = some c' ∧ callAfter [] = some c
      ∧ Run.run SerializeBuff.answer .blank [c', c] = some (shown, out)
      ∧ c.generated = some [123, 125]
      ∧ shown = [oneText, [123, 125, 34, 97, 34, 93, 32, 61, 32, 116, 114, 117, 101, 44, 10, 125]]
      ∧ shown ≠ [oneText, [123, 125]] := by
  obtain ⟨c, c', hc, hc', hgen, hgen'⟩ := callAfter_texts
  have hblank : SerializeBuff.blank.Ready := ⟨by simp [SerializeBuff.blank], by decide⟩
  obtain ⟨out₁, h₁, hready, hbuff⟩ := hblank.answer hgen' (by decide)
  obtain ⟨out₂, h₂, -, -⟩ := hready.answer hgen (by decide)
  rw [hbuff] at h₂
  refine ⟨c, c', _, out₂, hc', hc, ?_, hgen, rfl, by decide⟩
  exact (Run.run_cons_some _).mpr ⟨_, out₁, _, h₁,
    (Run.run_cons_some _).mpr ⟨_, out₂, [], h₂, rfl, rfl⟩, rfl⟩

end LightTable
