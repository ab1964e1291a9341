import MultibyteRegex.Error

/-! 後戻りのための積み重ね。分岐点と、捕獲の前の値と、括弧や輪の目印を一つの列に積む。 -/
namespace MultibyteRegex

/-- 捕獲の始まりと終わり。参加していなければ値がない。 -/
structure Slot where
  start : Option Nat := none
  stop : Option Nat := none
  deriving DecidableEq, Inhabited

/-- 番号ごとの捕獲。零番は照合の全体である。 -/
abbrev Captures := Array Slot

namespace Captures

def fresh (groups : Nat) : Captures := Array.replicate (groups + 1) {}

end Captures

/-- 積み重ねの一枚。 -/
inductive Frame
  /-- ふつうの分岐点。 -/
  | alt (pc pos : Nat)
  /-- 否定の先読みの本体が合わないときの再開点。 -/
  | posNot (pc pos : Nat)
  /-- 否定の後読みの本体が合わないときの再開点。 -/
  | behindNot (pc pos : Nat)
  | memStart (n : Nat) (prior : Slot)
  | memEnd (n : Nat) (prior : Option Nat)
  /-- 回数を増やした `repeatStart` の、下から数えた番号。 -/
  | repeatNext (index : Nat)
  /-- 数える繰り返しの本体の始まりと、済んだ回数。回数は三十二ビットで数えるものだが、一回増やすたびに `repeatNext`
  を一枚積み、幅を超えるより先に積み重ねが尽きるので、ここでは幅を設けない。 -/
  | repeatStart (id pc count : Nat)
  /-- 先読みの始まりの位置。 -/
  | ahead (pos : Nat)
  | atomic
  | nullCheck (id pos : Nat) (snapshot : Option Captures)
  | void
  deriving DecidableEq

namespace Frame

/-- 再開できる枠の命令と位置。 -/
def resume? : Frame → Option (Nat × Nat)
  | .alt pc pos => some (pc, pos)
  | .posNot pc pos => some (pc, pos)
  | .behindNot pc pos => some (pc, pos)
  | _ => none

def isResume (f : Frame) : Bool := f.resume?.isSome

def isPosNot : Frame → Bool
  | .posNot .. => true
  | _ => false

def isBehindNot : Frame → Bool
  | .behindNot .. => true
  | _ => false

end Frame

/-- 新しい枠ほど前にある。 -/
abbrev Stack := List Frame

namespace Stack

/-- 上限まで積む。 -/
def push (limit : Option Nat) (st : Stack) (f : Frame) : Except EvalError Stack :=
  if limit.any (· ≤ st.length) then .error .stackLimitExceeded else .ok (f :: st)

/-- 下から数えた番号を、上から数えた番号に直す。 -/
def depthOf? (st : Stack) (index : Nat) : Option Nat :=
  if index < st.length then some (st.length - 1 - index) else none

/-- 下から `index` 番目の数える繰り返しの、本体の始まりと回数。 -/
def repeatAt? (st : Stack) (index : Nat) : Option (Nat × Nat) :=
  match (st.depthOf? index).bind (st[·]?) with
  | some (.repeatStart _ pc count) => some (pc, count)
  | _ => none

/-- 下から `index` 番目の数える繰り返しの回数を書き換える。 -/
def setCount? (st : Stack) (index : Nat) (f : Nat → Nat) : Option Stack :=
  match st.depthOf? index with
  | none => none
  | some depth =>
    match st[depth]? with
    | some (.repeatStart id pc count) => some (st.set depth (.repeatStart id pc (f count)))
    | _ => none

/-- 番号が `id` の最も新しい数える繰り返しを、下から数えた番号で答える。 -/
def findRepeat? (id : Nat) : Stack → Option Nat
  | [] => none
  | .repeatStart i _ _ :: st => if i = id then some st.length else findRepeat? id st
  | _ :: st => findRepeat? id st

/-- 番号が `id` の最も新しい空の検査の、位置と捕獲の写し。 -/
def findNullCheck? (id : Nat) : Stack → Option (Nat × Option Captures)
  | [] => none
  | .nullCheck i pos snapshot :: st => if i = id then some (pos, snapshot) else findNullCheck? id st
  | _ :: st => findNullCheck? id st

/-- 再開点でない枠を外すときに、その働きを取り消す。取り消す相手がなければ値がない。 -/
def undo (f : Frame) (st : Stack) (caps : Captures) : Option (Stack × Captures) :=
  match f with
  | .memStart n prior => if n < caps.size then some (st, caps.setIfInBounds n prior) else none
  | .memEnd n prior =>
    if n < caps.size then some (st, caps.modify n fun s => { s with stop := prior }) else none
  | .repeatNext index => (st.setCount? index (· - 1)).map fun st => (st, caps)
  | _ => some (st, caps)

theorem setCount?_length {st st' : Stack} {index : Nat} {f : Nat → Nat}
    (h : st.setCount? index f = some st') : st'.length = st.length := by
  unfold setCount? at h
  split at h
  · cases h
  · split at h
    · cases h
      exact List.length_set
    · cases h

theorem undo_length {f : Frame} {st st' : Stack} {caps caps' : Captures}
    (h : undo f st caps = some (st', caps')) : st'.length = st.length := by
  unfold undo at h
  split at h
  · split at h <;> cases h
    rfl
  · split at h <;> cases h
    rfl
  · obtain ⟨s, hs, he⟩ := Option.map_eq_some_iff.1 h
    cases he
    exact setCount?_length hs
  · cases h
    rfl

/-- 枠を外した後の状態と、その成り行き。誤りのときも、そこまでの取り消しは残る。 -/
structure Popped (α : Type) where
  stack : Stack
  caps : Captures
  result : Except EvalError α

/-- 最も新しい再開点まで外す。なければ空になる。 -/
def popResume (st : Stack) (caps : Captures) : Popped (Option (Nat × Nat)) :=
  match st with
  | [] => ⟨[], caps, .ok none⟩
  | f :: st =>
    match f.resume? with
    | some target => ⟨st, caps, .ok (some target)⟩
    | none =>
      match _h : undo f st caps with
      | some (st', caps') => popResume st' caps'
      | none => ⟨st, caps, .error .stackBug⟩
termination_by st.length
decreasing_by
  have := undo_length _h
  simp
  omega

/-- `mark` の枠まで、それも含めて外す。途中の再開点は捨てる。 -/
def popThrough (mark : Frame → Bool) (st : Stack) (caps : Captures) : Popped Unit :=
  match st with
  | [] => ⟨[], caps, .error .stackBug⟩
  | f :: st =>
    if mark f then ⟨st, caps, .ok ()⟩
    else match _h : undo f st caps with
      | some (st', caps') => popThrough mark st' caps'
      | none => ⟨st, caps, .error .stackBug⟩
termination_by st.length
decreasing_by
  have := undo_length _h
  simp
  omega

/-- `mark` の枠と、そこまでの再開点を無効にする。枠の数は変わらない。 -/
def voidTo {α : Type} (mark : Frame → Option α) : Stack → Option α × Stack
  | [] => (none, [])
  | f :: st =>
    match mark f with
    | some a => (some a, .void :: st)
    | none =>
      let (found, st) := voidTo mark st
      (found, (if f.isResume then .void else f) :: st)

/-- 先読みの終わり。始まりの位置に戻る。 -/
def voidToPos (st : Stack) : Option Nat × Stack :=
  voidTo (fun f => match f with | .ahead pos => some pos | _ => none) st

/-- 後戻りの禁止の終わり。 -/
def voidToAtomic (st : Stack) : Option Unit × Stack :=
  voidTo (fun f => match f with | .atomic => some () | _ => none) st

end Stack
end MultibyteRegex
