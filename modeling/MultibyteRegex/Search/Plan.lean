import MultibyteRegex.Search.Hints
import MultibyteRegex.Search.Occurrence

/-! 検索の手順。手がかりから、照合を試す前に本文で探すものと、始まりの範囲を決める。 -/
namespace MultibyteRegex

/-- 照合を試す前に探すもの。 -/
inductive Finder
  /-- 何も探さず、どの位置も試す。 -/
  | nothing
  | exact (key : List UInt8)
  /-- 飛ばしながら探す文字列。 -/
  | leaping (key : List UInt8)
  /-- 写した後のバイト列と比べる文字列。 -/
  | folded (key : List UInt8)
  | member (set : ByteSet)
  deriving DecidableEq

namespace Finder

def isNothing : Finder → Bool
  | .nothing => true
  | _ => false

/-- `start` から `limit` までで最初に現れる位置。 -/
def forward (f : Finder) (e : Encoding) (fold : FoldTable) (text : Text) (start limit : Nat) :
    Option Nat :=
  match f with
  | .nothing => none
  | .exact key =>
    (text.lastStart? key.length).bind fun last =>
      Text.firstFrom (text.hasAt key) start (min last limit)
  | .leaping key =>
    (text.lastStart? key.length).bind fun last =>
      text.leapForward (.forward key) key (min last limit) start
  | .folded key =>
    (text.lastStart? key.length).bind fun last =>
      Text.firstFrom (text.hasFoldedAt fold key) start (min last limit)
  | .member set => text.memberForward set e limit start

/-- `start` から `limit` まで戻りながら最初に現れる位置。 -/
def backward (f : Finder) (e : Encoding) (fold : FoldTable) (text : Text) (start limit : Nat) :
    Option Nat :=
  match f with
  | .nothing => none
  | .exact key =>
    (text.lastStart? key.length).bind fun last =>
      Text.lastFrom (text.hasAt key) limit (min last start)
  | .leaping key =>
    (text.lastStart? key.length).bind fun last =>
      text.leapBackward (.backward key) e key limit (min last start)
  | .folded key =>
    (text.lastStart? key.length).bind fun last =>
      Text.lastFrom (text.hasFoldedAt fold key) limit (min last start)
  | .member set =>
    (if text.size ≤ start then e.prevHead text 0 text.size else some start).bind
      (text.memberBackward set e limit)

theorem forward_ge {f : Finder} {e : Encoding} {fold : FoldTable} {text : Text}
    {start limit i : Nat} (h : f.forward e fold text start limit = some i) : start ≤ i := by
  cases f with
  | nothing => cases h
  | member set => exact Text.memberForward_ge h
  | exact key | folded key =>
    obtain ⟨last, _, h⟩ := Option.bind_eq_some_iff.1 h
    exact Text.firstFrom_ge h
  | leaping key =>
    obtain ⟨last, _, h⟩ := Option.bind_eq_some_iff.1 h
    exact Text.leapForward_ge h

theorem backward_le {f : Finder} {e : Encoding} {fold : FoldTable} {text : Text}
    {start limit i : Nat} (h : f.backward e fold text start limit = some i) : i ≤ start := by
  cases f with
  | nothing => cases h
  | member set =>
    obtain ⟨p, hp, h⟩ := Option.bind_eq_some_iff.1 h
    have := Text.memberBackward_le h
    split at hp
    · have := Encoding.prevHead_lt hp
      omega
    · cases hp
      omega
  | exact key | folded key =>
    obtain ⟨last, _, h⟩ := Option.bind_eq_some_iff.1 h
    have := Text.lastFrom_le h
    omega
  | leaping key =>
    obtain ⟨last, _, h⟩ := Option.bind_eq_some_iff.1 h
    have := Text.leapBackward_le h
    omega

end Finder

/-- 検索の手順。 -/
structure Plan where
  edges : Edges := {}
  /-- 両端を決める検査と合わせて使う、照合の長さの区間。 -/
  length : Interval := .unknown
  /-- 照合の長さの下限。 -/
  threshold : Nat := 0
  finder : Finder := .nothing
  /-- 照合の始まりから、探すものまでの距離。 -/
  distance : Interval := .zero
  deriving DecidableEq

namespace Plan

/-- 飛ばしながら探す文字列の長さの下限。 -/
def leapLength (e : Encoding) : Nat := if e.isLeadDistinguishable then 2 else 3

def finderOf (e : Encoding) (k : Key) : Finder :=
  if k.folded then .folded k.bytes
  else if leapLength e ≤ k.bytes.length then .leaping k.bytes
  else .exact k.bytes

/-- 手がかりから手順を決める。文字列があれば集合より先に使う。 -/
def ofHints (e : Encoding) (h : Hints) : Plan :=
  let plan : Plan := { edges := h.edges, length := h.length, threshold := h.threshold }
  match h.key, h.first with
  | some k, _ => { plan with finder := finderOf e k, distance := k.distance }
  | none, some set => { plan with finder := .member set }
  | none, none => plan

/-- 引けなければ値がない。 -/
def minus? (n m : Nat) : Option Nat := if m ≤ n then some (n - m) else none

/-- 本文の終わりを決める検査があるときの、照合の終わりの下限。末尾の改行の前でもよければ一つ戻る。 -/
def earliestEnd (p : Plan) (text : Text) : Nat :=
  if p.edges.semiEndBuf ∧ text.back? = some 0x0a then text.size - 1 else text.size

/-- 検査に合う始まりの範囲。両端を含む。 -/
def window? (p : Plan) (text : Text) (start lo hi : Nat) : Option (Nat × Nat) := do
  let (lo, hi) := if p.edges.beginPosition ∨ p.edges.anyStarNewline then (start, start) else (lo, hi)
  let hi ← if p.edges.beginBuf then if 0 < lo then none else some 0 else some hi
  let (lo, hi) ←
    if p.edges.endBuf ∨ p.edges.semiEndBuf then do
      let latest ← minus? text.size p.length.min
      let lo := match p.length.max with
        | some longest => max lo (p.earliestEnd text - longest)
        | none => lo
      some (lo, min hi latest)
    else some (lo, hi)
  let latest ← minus? text.size p.threshold
  let hi := min hi latest
  if lo ≤ hi then some (lo, hi) else none

end Plan
end MultibyteRegex
