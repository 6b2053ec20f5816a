/-
  LightTable.Table.Contents
  ─────────────────────────
  A table as a finite tree: its keys in the order of `keys`, each with its
  value, and a value that is a table with the tree of that table.

  `World.HoldsTable` says that a table holds such a tree.  `_do_serialize` then
  goes through the tree and nothing else: it formats one piece after the other
  (`Contents.pieces`) as long as each fits `temp` (`Contents.Fits`), and gives
  up at the first that does not (`World.HoldsTable.pieces_ok`).
-/
import LightTable.Table.Cycles

namespace LightTable

open Fuel Relation

/-! ## §1. Trees. -/

mutual

/-- A value, down to the tables in it. -/
inductive Content where
  | number (n : Word)
  | boolean (b : Int32)
  | string (str : Bytes)
  | table (entries : Contents)

/-- The entries of a table. -/
inductive Contents where
  | nil
  | cons (key : Key) (value : Content) (rest : Contents)

end

/-- How many entries a table has. -/
def Contents.length : Contents → Nat
  | .nil => 0
  | .cons _ _ rest => rest.length + 1

/-- The bytes of a string up to the first NUL. -/
def cBytes (str : Bytes) : Bytes := str.takeWhile (fun c => c != 0)

theorem cRead_terminated (str : Bytes) : cRead (str ++ [0]) = some (cBytes str) := by
  unfold cRead cBytes
  rw [if_pos (by simp), List.takeWhile_append]
  by_cases h : (str.takeWhile (fun c => c != 0)).length = str.length
  · have hall := (List.takeWhile_prefix (fun c : UInt8 => c != 0) (l := str)).eq_of_length h
    rw [if_pos h, hall]
    simp
  · rw [if_neg h]

theorem cBytes_plain (str : Bytes) : (0 : UInt8) ∉ cBytes str := by
  intro h
  have hall := List.all_takeWhile (p := fun c : UInt8 => c != 0) (l := str)
  exact absurd (List.all_eq_true.mp hall 0 h) (by decide)

/-- What is formatted for a key: `["%s"] = ` or `["%d"]=`. -/
def Key.printed : Key → Bytes
  | .str name => [91, 34] ++ cBytes name ++ [34, 93, 32, 61, 32]
  | .num idx => [91, 34] ++ decimal (asInt idx.toNat) ++ [34, 93, 61]

mutual

/-- What is formatted for a value, piece by piece. -/
def Content.pieces : Content → List Bytes
  | .number n => [lf n]
  | .boolean b => [if b ≠ 0 then [116, 114, 117, 101] else [102, 97, 108, 115, 101]]
  | .string str => [[34] ++ cBytes str ++ [34]]
  | .table entries => [[123]] ++ entries.pieces ++ [[125]]

/-- What is formatted for the entries of a table. -/
def Contents.pieces : Contents → List Bytes
  | .nil => []
  | .cons key value rest => [key.printed] ++ value.pieces ++ [[44, 10]] ++ rest.pieces

end

/-- The text between the braces. -/
def Contents.body (cs : Contents) : Bytes := cs.pieces.flatten

/-- The text of a table. -/
def Contents.text (cs : Contents) : Bytes := [123] ++ cs.body ++ [125]

/-- The key fits `temp` with what is printed around it, and a NUL. -/
def Key.FitsTemp : Key → Prop
  | .str name => (cBytes name).length ≤ 992
  | .num _ => True

mutual

/-- Every string fits `temp` between its quotes, and every key does. -/
def Content.Fits : Content → Prop
  | .number _ => True
  | .boolean _ => True
  | .string str => (cBytes str).length ≤ 997
  | .table entries => entries.Fits

/-- Every key of the table fits `temp`, and every value. -/
def Contents.Fits : Contents → Prop
  | .nil => True
  | .cons key value rest => key.FitsTemp ∧ value.Fits ∧ rest.Fits

end

/-! ## §2. Tables that hold a tree. -/

/-- The value that a setter stored, when it is no pointer. -/
def Arg.content : Arg → Option Content
  | .number n => some (.number n)
  | .boolean b => some (.boolean b)
  | .string str => some (.string str)
  | .ud _ => none

/-- The record names the key, and prints it. -/
structure TableKey.Names (r : TableKey) (key : Key) : Prop where
  toKey : r.toKey = some key
  text : r.text = some key.printed

mutual

/-- The table at `t` holds the tree `cs`, with tables nested at most `d`
deep. -/
inductive World.HoldsTable (w : World) : Nat → Addr → Contents → Prop
  | table {d : Nat} {t : Addr} {size : Nat} {records : List TableKey} {cs : Contents}
      (hsize : w.size t = some (size, w)) (hkeys : w.keys t size = some (records, w))
      (hentries : World.HoldsEntries w d t records cs) : World.HoldsTable w (d + 1) t cs

/-- The readers of the table at `t` show the entries `cs` for the records. -/
inductive World.HoldsEntries (w : World) : Nat → Addr → List TableKey → Contents → Prop
  | nil {d : Nat} {t : Addr} : World.HoldsEntries w d t [] .nil
  | plain {d : Nat} {t : Addr} {r : TableKey} {records : List TableKey} {key : Key} {a : Arg}
      {value : Content} {rest : Contents} (hname : r.Names key) (htype : r.type = a.type)
      (hvalue : a.content = some value) (hread : w.ReadsAs t key (some a))
      (hrest : World.HoldsEntries w d t records rest) :
      World.HoldsEntries w d t (r :: records) (.cons key value rest)
  | nested {d : Nat} {t u : Addr} {r : TableKey} {records : List TableKey} {key : Key}
      {entries rest : Contents} (hname : r.Names key) (htype : r.type = .ud)
      (hread : w.ReadsAs t key (some (.ud u))) (hu : World.HoldsTable w d u entries)
      (hrest : World.HoldsEntries w d t records rest) :
      World.HoldsEntries w d t (r :: records) (.cons key (.table entries) rest)

end

variable {w : World} {t u : Addr} {d : Nat} {records : List TableKey} {cs : Contents} {tmp : Value}

theorem World.HoldsEntries.length_eq (h : w.HoldsEntries d t records cs) :
    records.length = cs.length := by
  induction records generalizing cs with
  | nil =>
    cases h
    rfl
  | cons r records ih =>
    cases h with
    | plain _ _ _ _ hrest => exact congrArg Nat.succ (ih hrest)
    | nested _ _ _ _ hrest => exact congrArg Nat.succ (ih hrest)

/-- A table that is followed from an entry is one of the tree. -/
theorem World.HoldsEntries.follows (h : w.HoldsEntries d t records cs) {r : TableKey}
    (hr : r ∈ records) (hud : r.type = .ud) {w' : World}
    (hu : w.subTable t r tmp = some (u, w')) : ∃ entries, w.HoldsTable d u entries := by
  induction records generalizing cs with
  | nil => exact absurd hr (by simp)
  | cons r' records ih =>
    cases h with
    | @plain _ _ _ _ key a value rest hname htype hvalue hread hrest =>
      rcases List.mem_cons.mp hr with rfl | hr
      · -- a plain value is no table
        rw [hud] at htype
        cases a with
        | ud v => exact absurd hvalue (by simp [Arg.content])
        | number n => cases htype
        | boolean b => cases htype
        | string str => cases htype
      · exact ih hrest hr
    | @nested _ _ v _ _ key entries rest hname htype hread htab hrest =>
      rcases List.mem_cons.mp hr with rfl | hr
      · unfold World.subTable at hu
        rw [hname.toKey, Option.bind_some] at hu
        have hget : w.getUd t key tmp = some (v, w) := (hread tmp).2
        rw [hget] at hu
        cases hu
        exact ⟨entries, htab⟩
      · exact ih hrest hr

/-- The calls on a finite tree of tables are well founded. -/
theorem World.HoldsTable.acc (d : Nat) : ∀ {t : Addr} {cs : Contents}, w.HoldsTable d t cs →
    Acc (fun u t => w.Follows tmp t u) t := by
  induction d with
  | zero => intro t cs h; cases h
  | succ d ih =>
    intro t cs h
    cases h with
    | table hsize hkeys hentries =>
      refine Acc.intro t ?_
      intro u hu
      obtain ⟨keys, w₁, r, w₂, he, hr, hud, hsub⟩ := hu
      -- what is enumerated are the records of the tree
      unfold World.enumerated at he
      rw [hsize, Option.bind_eq_bind, Option.bind_some] at he
      obtain ⟨⟨keys', w₃⟩, hkeys', he⟩ := Option.bind_eq_some_iff.mp he
      rw [hkeys] at hkeys'
      cases hkeys'
      obtain ⟨x, -, he⟩ := Option.bind_eq_some_iff.mp he
      cases he
      obtain ⟨entries, htab⟩ := hentries.follows hr hud hsub
      exact ih htab

/-- Nothing that is reached from a well-founded point lies on a cycle. -/
theorem no_cycle_of_acc {α : Type} {G : α → α → Prop} {a : α} (h : Acc (fun b a => G a b) a) :
    ∀ b, ReflTransGen G a b → ¬ TransGen G b b := by
  have hirrefl : ∀ x : α, Acc (TransGen (fun b a => G a b)) x →
      ¬ TransGen (fun b a => G a b) x x := by
    intro x hx
    induction hx with
    | intro x _ ih =>
      intro hxx
      exact ih x hxx hxx
  intro b hab
  have hb : Acc (fun b a => G a b) b := by
    induction hab with
    | refl => exact h
    | tail _ hcd ih => exact ih.inv hcd
  intro hcyc
  have hswap : TransGen (fun b a => G a b) b b := (transGen_swap (r := G)).mpr hcyc
  exact hirrefl b hb.transGen hswap

end LightTable
