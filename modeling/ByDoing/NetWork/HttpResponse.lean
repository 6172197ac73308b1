import ByDoing.NetWork.Buffer
import ByDoing.NetWork.HttpRequest

namespace NetWork

structure HttpResponse where
  statusCode : Int
  statusMessage : Option (List UInt8)
  body : Option (List UInt8)
  responseHeaders : List (List UInt8 × List UInt8)
  keepConnected : Bool
  deriving Repr, DecidableEq

inductive HttpFault where
  | assertFailed
  | nullPointer
  | outOfBlock
  deriving Repr, DecidableEq

namespace HttpResponse

def httpResponseNew : HttpResponse :=
  {
    statusCode := 0
    statusMessage := none
    body := none
    responseHeaders := []
    keepConnected := false
  }

def CRLF : List UInt8 := [13, 10]

-- `snprintf` into `char buf[32]`
def snprintf (s : String) : List UInt8 :=
  (ascii s).take 31

def headerStrings (header : List UInt8 × List UInt8) : List (Option (List UInt8)) :=
  [some header.fst, some (ascii ": "), some header.snd, some CRLF]

-- The strings that are appended one after the other; `strlen` of a `NULL` body is a fault.
def encodedStrings (r : HttpResponse) : Except HttpFault (List (Option (List UInt8))) :=
  let status := [some (snprintf s!"HTTP/1.1 {r.statusCode} "), r.statusMessage, some CRLF]
  let headers := r.responseHeaders.flatMap headerStrings
  let rest := headers ++ [some CRLF, r.body]
  if r.keepConnected then
    .ok (status ++ [some (ascii "Connection: close" ++ CRLF)] ++ rest)
  else
    match r.body with
    | none => .error .nullPointer
    | some body =>
      .ok (status
        ++ [some ((ascii s!"Content-Length: {body.length}" ++ CRLF).take 31),
            some (ascii "Connection: Keep-Alive" ++ CRLF)]
        ++ rest)

def appendStrings (realloc : Realloc) (output : Buffer)
    : List (Option (List UInt8)) → Except HttpFault Buffer
  | [] => .ok output
  | s :: ss =>
    match output.bufferAppendString realloc s with
    | none => .error .outOfBlock
    | some output => appendStrings realloc output ss

def httpResponseEncodeBuffer (realloc : Realloc) (r : HttpResponse) (output : Buffer)
    : Except HttpFault Buffer :=
  match r.encodedStrings with
  | .error e => .error e
  | .ok ss => appendStrings realloc output ss

theorem appendStrings_ok {realloc : Realloc} (hrealloc : ∀ (n : Nat), (realloc n).isSome)
    {output : Buffer} (hwf : output.Wf) (ss : List (Option (List UInt8)))
    : ∃ output', appendStrings realloc output ss = .ok output' ∧ output'.Wf
        ∧ output'.readable = output.readable ++ ss.flatMap (·.getD []) := by
  induction ss generalizing output with
  | nil => exact ⟨output, rfl, hwf, by simp⟩
  | cons s ss ih =>
    unfold appendStrings Buffer.bufferAppendString
    cases s with
    | none => exact ih hwf
    | some src =>
      obtain ⟨output', happend, hwf', hreadable⟩ :=
        Buffer.bufferAppend_spec hwf src (.inr (hrealloc (output.totalSize + src.length)))
      obtain ⟨output'', hrest, hwf'', hreadable'⟩ := ih hwf'
      rw [happend]
      refine ⟨output'', hrest, hwf'', ?_⟩
      rw [hreadable', hreadable, List.append_assoc]
      rfl

end HttpResponse
end NetWork
