import Hin9.Http.FileHead

/-!
# `Http.Upstream` — reading the head of an upstream response (`headers.c`, `http_utils.c`, `buffer.c`)

The bytes an upstream server sends are collected in a line buffer, which is parsed anew after every read until the head
is there. What lies in the memory of the buffer behind the bytes received is left over from before.

`hin_find_line` looks at one byte more than its view has. When that byte is a line feed it ends the last line, and the
view that is left has the length `-1`.
-/

namespace Hin9
namespace Http

open Pattern

/-! ## Lines -/

/-- A `string_t`. Where `beyond` is set its length is `-1`. -/
structure Source where
  data : Bytes
  beyond : Bool := false
deriving Repr, DecidableEq

/-- `source->len` as a signed number. -/
def Source.len (s : Source) : Int := if s.beyond then -1 else s.data.length

/-- The carriage return in front of the line feed is no part of the line. -/
def dropCR (line : Bytes) : Bytes := if line.getLast? = some CR then line.dropLast else line

/-- `hin_find_line`, with the byte `behind` the view: the line, and the source behind it. -/
def hinFindLine (behind : UInt8) (s : Source) : Option (Bytes × Source) :=
  if s.beyond then none
  else
    match s.data.findIdx? (· == LF) with
    | some i => some (dropCR (s.data.take i), { data := s.data.drop (i + 1) })
    | none => if behind = LF then some (dropCR s.data, { data := [], beyond := true }) else none

/-! ## The head -/

/-- What `http_parse_headers_line` notes of a head: `http->sz` and the `HIN_HTTP_CHUNKED` bit of `http->flags`. -/
structure Framing where
  sz : Int := 0
  chunked : Bool := false
deriving Repr, DecidableEq

/-- `http_parse_headers_line`; `none` for a transfer encoding it does not support. The capture ends with the line, where
    `atoi` stops as well. -/
def httpParseHeadersLine (h : Framing) (line : Bytes) : Option Framing :=
  let m := matchiStringEqual line (bytes "Content-Length: (%d+)")
  match m.took with
  | some _ => some { h with sz := atoi (m.capture line 0) }
  | none =>
      match (matchiString line (bytes "Transfer-Encoding:%s*")).took with
      | some n =>
          let line := line.drop n
          match (matchiString line (bytes "chunked")).took with
          | some _ => some { h with chunked := true }
          | none => if (matchiString line (bytes "identity")).took.isSome then some h else none
      | none => some h

/-- The first loop of `http_client_headers_read_callback`: whether the blank line has come. A line that ends with the
    view is waited behind. -/
def headThere (behind : UInt8) : Nat → Source → Bool
  | 0, _ => false
  | fuel + 1, s =>
      match hinFindLine behind s with
      | none => false
      | some (line, s) => if line = [] then true else if s.len = 0 then false else headThere behind fuel s

/-- The second loop, behind the status line: every line up to the blank one is parsed. The lines are kept for
    `hin_rproxy_headers`, which goes through them again. -/
def headLines (behind : UInt8) : Nat → Source → Framing → List Bytes → Option (Source × Framing × List Bytes)
  | 0, s, h, lines => some (s, h, lines)
  | fuel + 1, s, h, lines =>
      match hinFindLine behind s with
      | none => some (s, h, lines)
      | some (line, s) =>
          if line = [] then some (s, h, lines)
          else
            match httpParseHeadersLine h line with
            | none => none
            | some h => headLines behind fuel s h (lines ++ [line])

/-- A head that has been read: the status, the framing, the lines, and the source behind it. -/
structure UpstreamHead where
  status : Int
  framing : Framing
  lines : List Bytes
  rest : Source
deriving Repr, DecidableEq

inductive HeadRead where
  | wait
  | error
  | head (h : UpstreamHead)
deriving Repr, DecidableEq

/-- `http_client_headers_read_callback` up to the pipe it starts, on the bytes collected. -/
def httpClientHeaders (behind : UInt8) (data : Bytes) : HeadRead :=
  if headThere behind (data.length + 1) { data } then
    match hinFindLine behind { data } with
    | none => .error
    | some (line, s) =>
        let m := matchString line (bytes "HTTP/1.%d ([%d]+) %w+")
        match m.took with
        | none => .error
        | some _ =>
            match headLines behind (data.length + 1) s {} [] with
            | none => .error
            | some (rest, framing, lines) => .head { status := atoi (m.capture line 0), framing, lines, rest }
  else .wait

/-- `http_client_start_pipe`: how many of the bytes behind the head go to the pipe at once. A negative length takes the
    source back. -/
def firstPiece (head : Bool) (h : UpstreamHead) : Int :=
  if head then 0
  else if h.framing.sz ≠ 0 ∧ h.framing.sz < h.rest.len then h.framing.sz
  else h.rest.len

end Http
end Hin9
