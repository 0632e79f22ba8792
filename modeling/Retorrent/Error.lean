import Retorrent.Rustlib.Outcome
import Retorrent.Rustlib.Str

/-!
# Errors

The variants of `TorrentError` that the modelled code returns, with their
messages.
-/

namespace Retorrent

open Rust

inductive TorrentError where
  | bencodeParse (msg : Str)
  | invalidMetaInfo (msg : Str)
  | magnetParse (msg : Str)
  | peer (msg : Str)
  | network (msg : Str)
  | storage (msg : Str)
  | io (msg : Str)
  | resumeData (msg : Str)
  deriving DecidableEq

/-- `error::Result<T>`. -/
abbrev Res (α : Type) := Outcome TorrentError α

end Retorrent
