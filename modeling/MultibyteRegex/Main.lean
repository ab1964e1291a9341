import MultibyteRegex.Grep.Search

/-! 行を検索するコマンドの入口。引数の名指すファイルを読み、答えを書き出す。 -/
namespace MultibyteRegex
namespace Grep

/-- 検索の歩数の上限。計算機が実際に使い切れる数より大きい。 -/
def ample : Nat := 0x4000000000000000

/-- ファイルを読む。 -/
def readContents (name : String) : IO Contents := do
  try
    return .bytes (← IO.FS.readBinFile name).data
  catch e =>
    match e with
    | .noFileOrDirectory .. => return .missing
    | .inappropriateType .. => return .directory
    | .permissionDenied .. => return .denied
    | e => return .unopened (toString e)

/-- 検索するファイルの名前。 -/
def filesOf (args : List String) : List String :=
  match Arguments.read {} none args with
  | .ok a => (a.patternsAndFiles?.map Prod.snd).getD []
  | .error _ => []

/-- コマンドの全体。終了コードを答える。 -/
def command (args : List String) : IO UInt32 := do
  let files := filesOf args
  let contents ← files.mapM fun f => return (f, ← readContents f)
  let stdin ← if files.isEmpty then (← IO.getStdin).readBinToEnd else pure .empty
  let lookup (name : String) := (contents.lookup name).getD .missing
  match run ample (.bytes stdin.data) lookup args with
  | some (.ok report) =>
    (← IO.getStdout).write ⟨report.out⟩
    (← IO.getStderr).write ⟨report.err⟩
    return if report.aborted then 101 else 0
  | some (.error _) =>
    IO.eprintln helpText
    return 2
  | none => return 1

end Grep
end MultibyteRegex

def main (args : List String) : IO UInt32 := MultibyteRegex.Grep.command args
