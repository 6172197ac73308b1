import ByDoing.NetWork.ReadLine

namespace NetWork

/--
The calls return the lines one after the other, and `rest` is what is left of the stream behind the last one.
-/
def Delivers (reader : Socket → LineResult (BitVec 64)) (rest : List UInt8) : List (List UInt8) → Socket → Prop
  | [], s => s.content = rest
  | line :: lines, s =>
    (reader s).ret.toNat = line.length ∧ (reader s).stores = line.zipIdx ++ [(0, line.length)]
      ∧ Delivers reader rest lines (reader s).socket

-- What `recv` hands out for the read buffer, call by call.
def blocks (s : Socket) : List (List UInt8) :=
  match h : s.recv 512 with
  | (.ok [], _) => []
  | (.ok (b :: bs), s') => (b :: bs) :: blocks s'
  | (.error _, s') => blocks s'
termination_by s.weight
decreasing_by
  . obtain ⟨_, _, _, _, _, hweight, _⟩ := Socket.recv_ok h
    rw [hweight, List.length_cons]
    omega
  . rw [Socket.recv_error h, Socket.weight]
    omega

def NewlineLast (s : Socket) : Prop :=
  ∀ block ∈ blocks s, newline ∉ block.dropLast

theorem newlineLast_recv {s s' : Socket} {b : UInt8} {bs : List UInt8} (h : s.recv 512 = (.ok (b :: bs), s'))
    : NewlineLast s ↔ newline ∉ (b :: bs).dropLast ∧ NewlineLast s' := by
  have hblocks : blocks s = (b :: bs) :: blocks s' := by
    rw [blocks]
    split
    . next heq =>
      rw [h] at heq
      cases heq
    . next heq =>
      rw [h] at heq
      cases heq
      rfl
    . next heq =>
      rw [h] at heq
      cases heq
  unfold NewlineLast
  rw [hblocks, List.forall_mem_cons]

theorem newlineLast_of_not_mem {s : Socket} (h : newline ∉ s.content) : NewlineLast s := by
  unfold NewlineLast
  fun_induction blocks s with
  | case1 s _ hrecv => exact List.forall_mem_nil _
  | case2 s b bs s' hrecv ih =>
    obtain ⟨_, hcontent, _⟩ := Socket.recv_ok hrecv
    rw [hcontent, List.mem_append, not_or] at h
    rw [List.forall_mem_cons]
    exact ⟨fun hmem => h.left (List.dropLast_subset _ hmem), ih h.right⟩
  | case3 s _ s' hrecv ih =>
    rw [Socket.recv_error hrecv] at h
    exact ih h

namespace readline

variable {length : BitVec 64} {left : List UInt8} {offset : Nat} {stores : List (UInt8 × Nat)} {s : Socket}

theorem receive_content {r : List UInt8} {s' : Socket} (h : receive left s = (.ok r, s'))
    : left ++ s.content = r ++ s'.content := by
  unfold receive at h
  split at h
  . next hnil =>
    obtain ⟨_, hcontent, _⟩ := Socket.recv_ok h
    rw [hnil, hcontent, List.nil_append]
  . cases h
    rfl

theorem receive_cons {c : UInt8} {bytes : List UInt8} (hcalm : s.Calm) (h : left ++ s.content = c :: bytes)
    : ∃ left' s', receive left s = (.ok (c :: left'), s') ∧ left' ++ s'.content = bytes ∧ s'.Calm
        ∧ (newline ∉ left.dropLast ∧ NewlineLast s ↔ newline ∉ (c :: left').dropLast ∧ NewlineLast s') := by
  cases left with
  | nil =>
    obtain ⟨left', s', hrecv, hcontent, hcalm'⟩ := Socket.recv_calm (by decide : 0 < 512) hcalm h
    refine ⟨left', s', hrecv, hcontent, hcalm', ?_⟩
    rw [newlineLast_recv hrecv]
    simp
  | cons c' left' =>
    rw [List.cons_append, List.cons.injEq] at h
    obtain ⟨rfl, hcontent⟩ := h
    exact ⟨left', s, rfl, hcontent, hcalm, Iff.rfl⟩

theorem loop_char {c : UInt8} {left' : List UInt8} {s' : Socket} (hlength : 1 < length.toNat)
    (h : receive left s = (.ok (c :: left'), s'))
    : loop length left offset stores s
      = if c = newline then
          {
            ret := BitVec.ofNat 64 (offset + 1)
            stores := stores ++ [(c, offset)] ++ [(0, offset + 1)]
            ahead := left'
            socket := s'
          }
        else
          loop (length - 1) left' (offset + 1) (stores ++ [(c, offset)]) s' := by
  have hmore : 0 < (length - 1).toNat := by
    rw [toNat_pred (by omega)]
    omega
  rw [loop, if_pos hmore]
  split
  . next heq =>
    rw [h] at heq
    cases heq
  . next heq =>
    rw [h] at heq
    cases heq
  . next heq =>
    rw [h] at heq
    cases heq
    rfl

theorem loop_line {line rest : List UInt8} (hline : newline ∉ line) (hlength : line.length + 1 < length.toNat)
    (hlt : offset + length.toNat ≤ 2 ^ 64) (hcalm : s.Calm) (hs : left ++ s.content = line ++ newline :: rest)
    : (loop length left offset stores s).ret.toNat = offset + (line ++ [newline]).length
        ∧ (loop length left offset stores s).stores
          = stores ++ (line ++ [newline]).zipIdx offset ++ [(0, offset + (line ++ [newline]).length)]
        ∧ (loop length left offset stores s).ahead ++ (loop length left offset stores s).socket.content = rest
        ∧ (loop length left offset stores s).socket.Calm
        ∧ (newline ∉ left.dropLast ∧ NewlineLast s
          ↔ (loop length left offset stores s).ahead = [] ∧ NewlineLast (loop length left offset stores s).socket) := by
  induction line generalizing length left offset stores s with
  | nil =>
    obtain ⟨left', s', hreceive, hrest, hcalm', hlast⟩ := receive_cons hcalm hs
    rw [List.length_nil] at hlength
    rw [loop_char hlength hreceive, if_pos rfl, hlast]
    refine ⟨?_, rfl, hrest, hcalm', ?_⟩
    . rw [BitVec.toNat_ofNat, Nat.mod_eq_of_lt (by omega)]
      rfl
    . cases left' with
      | nil => simp
      | cons _ _ => simp
  | cons c line ih =>
    obtain ⟨left', s', hreceive, hrest, hcalm', hlast⟩ := receive_cons hcalm hs
    rw [List.mem_cons, not_or] at hline
    rw [List.length_cons] at hlength
    have hpred := @toNat_pred length (by omega)
    have hdrop : newline ∉ (c :: left').dropLast ↔ newline ∉ left'.dropLast := by
      cases left' with
      | nil => simp
      | cons _ _ => simp [hline.left]
    rw [loop_char (by omega) hreceive, if_neg (Ne.symm hline.left), List.cons_append, append_zipIdx_cons, add_length_cons,
      hlast, hdrop]
    exact ih hline.right (by omega) (by omega) hcalm' hrest

theorem loop_length (length : BitVec 64) (left : List UInt8) (offset : Nat) (stores : List (UInt8 × Nat)) (s : Socket)
    : (loop length left offset stores s).stores.length + (loop length left offset stores s).socket.content.length
        ≤ stores.length + left.length + s.content.length + 1 := by
  fun_induction loop length left offset stores s with
  | case1 length left offset stores s hmore s' h ih =>
    rw [(receive_error h).right]
    exact ih
  | case2 length left offset stores s hmore errno s' h hne =>
    rw [(receive_error h).right]
    simp [Socket.content, Socket.arrived]
    omega
  | case3 length left offset stores s hmore s' h =>
    have hcontent := congrArg List.length (receive_content h)
    rw [List.length_append, List.length_append, List.length_nil] at hcontent
    dsimp only
    omega
  | case4 length left offset stores s hmore left' s' h =>
    have hcontent := congrArg List.length (receive_content h)
    simp only [List.length_append, List.length_cons, List.length_nil] at hcontent ⊢
    omega
  | case5 length left offset stores s hmore c left' s' h hc ih =>
    have hcontent := congrArg List.length (receive_content h)
    simp only [List.length_append, List.length_cons, List.length_nil] at hcontent ih
    omega
  | case6 length left offset stores s hmore =>
    dsimp only
    omega

end readline

section Lines

variable {length : BitVec 64} {lines : List (List UInt8)} {rest : List UInt8} {s : Socket}

def LinesFit (length : BitVec 64) (lines : List (List UInt8)) : Prop :=
  ∀ line ∈ lines, line.length < length.toNat ∧ ∃ text, newline ∉ text ∧ line = text ++ [newline]

theorem delivers_length (h : Delivers (readline length) rest lines s)
    : lines.flatten.length + rest.length ≤ s.content.length := by
  induction lines generalizing s with
  | nil =>
    rw [h]
    simp
  | cons line lines ih =>
    obtain ⟨_, hstores, hlines⟩ := h
    have hrest := ih hlines
    have htaken := readline.loop_length length [] 0 [] s
    rw [readline] at hstores hrest
    rw [hstores] at htaken
    simp only [List.length_append, List.length_zipIdx, List.length_cons, List.length_nil, List.flatten_cons]
      at htaken ⊢
    omega

theorem readline_line {text : List UInt8} (htext : newline ∉ text) (hfit : (text ++ [newline]).length < length.toNat)
    (hcalm : s.Calm) (hs : s.content = text ++ newline :: rest)
    : (readline length s).ret.toNat = (text ++ [newline]).length
        ∧ (readline length s).stores = (text ++ [newline]).zipIdx ++ [(0, (text ++ [newline]).length)]
        ∧ (readline length s).ahead ++ (readline length s).socket.content = rest
        ∧ (readline length s).socket.Calm
        ∧ (NewlineLast s ↔ (readline length s).ahead = [] ∧ NewlineLast (readline length s).socket) := by
  have hlt := length.isLt
  rw [List.length_append, List.length_singleton] at hfit
  obtain ⟨hret, hstores, hrest, hcalm', hlast⟩ :=
    @readline.loop_line length [] 0 [] s text rest htext hfit (by omega) hcalm hs
  rw [Nat.zero_add] at hret hstores
  simp only [List.dropLast_nil, List.not_mem_nil, not_false_eq_true, true_and] at hlast
  exact ⟨hret, hstores, hrest, hcalm', hlast⟩

theorem delivers_readline2 (hcalm : s.Calm) (hs : s.content = lines.flatten ++ rest) (hlines : LinesFit length lines)
    : Delivers (readline2 length) rest lines s := by
  induction lines generalizing s with
  | nil => exact hs
  | cons line lines ih =>
    obtain ⟨⟨hfit, text, htext, rfl⟩, hfits⟩ := List.forall_mem_cons.mp hlines
    rw [List.flatten_cons, List.append_assoc, List.append_assoc, List.singleton_append, ← hcalm.unbroken_eq] at hs
    rw [List.length_append, List.length_singleton] at hfit
    have hlt := length.isLt
    obtain ⟨hret, hstores, hrest, hcalm'⟩ :=
      @readline2.loop_line length 0 [] s text _ htext (by omega) (by omega) hs
    rw [Nat.zero_add] at hret hstores
    rw [(hcalm' hcalm).unbroken_eq] at hrest
    exact ⟨hret, hstores, ih (hcalm' hcalm) hrest hfits⟩

theorem delivers_readline_iff (hcalm : s.Calm) (hs : s.content = lines.flatten ++ rest)
    (hlines : LinesFit length lines) (hrest : newline ∉ rest)
    : Delivers (readline length) rest lines s ↔ NewlineLast s := by
  induction lines generalizing s with
  | nil =>
    refine iff_of_true hs (newlineLast_of_not_mem ?_)
    rw [hs]
    exact hrest
  | cons line lines ih =>
    obtain ⟨⟨hfit, text, htext, rfl⟩, hfits⟩ := List.forall_mem_cons.mp hlines
    rw [List.flatten_cons, List.append_assoc, List.append_assoc, List.singleton_append] at hs
    obtain ⟨hret, hstores, hleft, hcalm', hlast⟩ := readline_line htext hfit hcalm hs
    rw [hlast, Delivers]
    constructor
    . rintro ⟨_, _, hdelivers⟩
      -- What has been read ahead is lost, so that there are too few bytes for the lines to come.
      have hlength := delivers_length hdelivers
      have hsplit := congrArg List.length hleft
      rw [List.length_append, List.length_append] at hsplit
      have hnil : (readline length s).ahead = [] := List.length_eq_zero_iff.mp (by omega)
      rw [hnil, List.nil_append] at hleft
      exact ⟨hnil, (ih hcalm' hleft hfits).mp hdelivers⟩
    . rintro ⟨hnil, hnewline⟩
      rw [hnil, List.nil_append] at hleft
      exact ⟨hret, hstores, (ih hcalm' hleft hfits).mpr hnewline⟩

/--
`readline_2` returns the lines of the stream one after the other, and `readline` does so too exactly if no block that
it receives goes on behind a newline.
-/
theorem delivers_iff_newlineLast (hcalm : s.Calm) (hs : s.content = lines.flatten ++ rest)
    (hlines : LinesFit length lines) (hrest : newline ∉ rest)
    : Delivers (readline2 length) rest lines s ∧ (Delivers (readline length) rest lines s ↔ NewlineLast s) :=
  ⟨delivers_readline2 hcalm hs hlines, delivers_readline_iff hcalm hs hlines hrest⟩

theorem linesFit_two : LinesFit 8 [[65, 10], [66, 10]] := by
  rw [LinesFit, List.forall_mem_cons, List.forall_mem_singleton]
  exact ⟨⟨by decide, [65], by decide, rfl⟩, by decide, [66], by decide, rfl⟩

-- Two lines, the first of them in two pieces.
theorem delivers_twoPieces
    : Delivers (readline2 8) [67] [[65, 10], [66, 10]] [.data 65 [], .data 10 [66, 10, 67]] := by
  refine (delivers_iff_newlineLast ?_ rfl linesFit_two (by decide)).left
  intro a ha
  simp at ha
  obtain rfl | rfl := ha
  . exact ⟨65, [], rfl⟩
  . exact ⟨10, [66, 10, 67], rfl⟩

-- Both lines come at once, and the second call finds nothing.
theorem not_delivers_onePiece : ¬Delivers (readline 8) [] [[65, 10], [66, 10]] [.data 65 [10, 66, 10]] := by
  intro h
  have hcalm : Socket.Calm [.data 65 [10, 66, 10]] := by
    intro a ha
    exact ⟨65, [10, 66, 10], by simpa using ha⟩
  have hlast := (delivers_readline_iff hcalm rfl linesFit_two (by simp)).mp h
  have hrecv : Socket.recv [.data 65 [10, 66, 10]] 512 = (.ok [65, 10, 66, 10], []) := rfl
  exact ((newlineLast_recv hrecv).mp hlast).left (by decide)

end Lines

namespace readLine

theorem recvChar_weight {c c' : UInt8} {n : Int} {s s' : Socket} (h : recvChar c (s.recv 1) = (n, c', s'))
    : s'.weight ≤ s.weight ∧ (0 < n → s'.weight + 1 ≤ s.weight) := by
  unfold recvChar at h
  split at h
  . next hrecv =>
    cases h
    obtain ⟨_, _, _, _, _, hweight, _⟩ := Socket.recv_ok hrecv
    rw [hweight, List.length_cons]
    omega
  . next hrecv =>
    cases h
    obtain ⟨_, _, _, _, _, hweight, _⟩ := Socket.recv_ok hrecv
    rw [hweight]
    simp
  . next hrecv =>
    cases h
    rw [Socket.recv_error hrecv, Socket.weight]
    simp

theorem peek_weight {c c' : UInt8} {n : Int} {s s' : Socket} (h : recvChar c (s.peek 1) = (n, c', s'))
    : s'.weight ≤ s.weight := by
  unfold Socket.peek at h
  split at h
  . unfold recvChar at h
    split at h
    . next heq =>
      cases heq
      cases h
      exact Nat.le_refl _
    . next heq =>
      cases heq
      cases h
      exact Nat.le_refl _
    . next heq => cases heq
  . next hrecv =>
    cases h
    rw [Socket.recv_error hrecv, Socket.weight]
    omega

theorem afterReturn_weight (c : UInt8) (s : Socket) : (afterReturn c s).2.weight ≤ s.weight := by
  unfold afterReturn
  split
  . split
    . next n c' s' hpeek =>
      have hle := peek_weight hpeek
      split
      . split
        . next hrecv =>
          have hle' := (recvChar_weight hrecv).left
          exact Nat.le_trans hle' hle
      . exact hle
  . exact Nat.le_refl _

theorem loop_weight (size : Int) (i : Nat) (c : UInt8) (stores : List (UInt8 × Nat)) (s : Socket)
    : (loop size i c stores s).ret + (loop size i c stores s).socket.weight ≤ i + s.weight := by
  fun_induction loop size i c stores s with
  | case1 i c stores s hmore n c' s' hrecv hn c'' s'' hreturn ih =>
    have htaken := (recvChar_weight hrecv).right hn
    have hle := afterReturn_weight c' s'
    rw [hreturn] at hle
    dsimp only at hle
    omega
  | case2 i c stores s hmore n c' s' hrecv hn ih =>
    have hle := (recvChar_weight hrecv).left
    omega
  | case3 i c stores s hmore => exact Nat.le_refl _

end readLine

namespace LineResult

def text (r : LineResult Nat) : List UInt8 :=
  (r.stores.take r.ret).map Prod.fst

theorem text_eq {r : LineResult Nat} {line : List UInt8} (h : r.stores = line.zipIdx ++ [(0, line.length)])
    (hret : r.ret = line.length) : r.text = line := by
  rw [text, h, hret, List.take_left' List.length_zipIdx, List.zipIdx_map_fst]

end LineResult

-- `read_line` again and again until it returns 0.
def readAll (size : Int) (s : Socket) : List (List UInt8) :=
  if (readLine size s).ret = 0 then [] else (readLine size s).text :: readAll size (readLine size s).socket
termination_by s.weight
decreasing_by
  have hle := readLine.loop_weight size 0 0 [] s
  rw [← readLine] at hle
  omega

def unixLines : List UInt8 → List UInt8
  | [] => []
  | [b] => if b = carriageReturn then [newline] else [b]
  | b :: b' :: bs =>
    if b = carriageReturn then
      if b' = newline then newline :: unixLines bs else newline :: unixLines (b' :: bs)
    else
      b :: unixLines (b' :: bs)

theorem unixLines_cons {b : UInt8} (h : b ≠ carriageReturn) (bs : List UInt8)
    : unixLines (b :: bs) = b :: unixLines bs := by
  cases bs with
  | nil => exact if_neg h
  | cons b' bs => rw [unixLines, if_neg h]

theorem unixLines_pair (bs : List UInt8) : unixLines (carriageReturn :: newline :: bs) = newline :: unixLines bs := by
  rw [unixLines, if_pos rfl, if_pos rfl]

theorem unixLines_lone {b : UInt8} (h : b ≠ newline) (bs : List UInt8)
    : unixLines (carriageReturn :: b :: bs) = newline :: unixLines (b :: bs) := by
  rw [unixLines, if_pos rfl, if_neg h]

namespace readLine

variable {size : Int} {i : Nat} {c : UInt8} {stores : List (UInt8 × Nat)} {s : Socket}

theorem recv_cases (hcalm : s.Calm)
    : s = [] ∨ ∃ b s', s.recv 1 = (.ok [b], s') ∧ s.content = b :: s'.content ∧ s'.Calm := by
  cases hcontent : s.content with
  | nil => exact .inl (hcalm.content_eq_nil hcontent)
  | cons b bytes =>
    rw [← hcalm.unbroken_eq] at hcontent
    obtain ⟨s', hrecv, hrest, hcalm'⟩ := Socket.recv_one hcontent
    rw [(hcalm' hcalm).unbroken_eq] at hrest
    right
    exact ⟨b, s', hrecv, by rw [hrest], hcalm' hcalm⟩

theorem afterReturn_spec (hcalm : s.Calm) (c : UInt8)
    : unixLines (c :: s.content) = (afterReturn c s).1 :: unixLines (afterReturn c s).2.content
        ∧ (afterReturn c s).2.Calm := by
  unfold afterReturn
  by_cases hc : c = carriageReturn
  . rw [if_pos hc, hc]
    obtain rfl | ⟨b, s', hrecv, hcontent, hcalm'⟩ := recv_cases hcalm
    . exact ⟨rfl, hcalm⟩
    . have hpeek : recvChar carriageReturn (s.peek 1) = (1, b, s) := by
        rw [Socket.peek, hrecv]
        rfl
      rw [hpeek]
      dsimp only
      rw [hrecv]
      by_cases hb : b = newline
      . rw [if_pos ⟨by decide, hb⟩, hcontent, hb, unixLines_pair]
        exact ⟨rfl, hcalm'⟩
      . rw [if_neg (fun h => hb h.right), hcontent, unixLines_lone hb]
        exact ⟨rfl, hcalm⟩
  . rw [if_neg hc, unixLines_cons hc]
    exact ⟨rfl, hcalm⟩

theorem loop_line (hcalm : s.Calm)
    : ∃ line : List UInt8, (loop size i c stores s).ret = i + line.length
        ∧ (loop size i c stores s).stores = stores ++ line.zipIdx i ++ [(0, i + line.length)]
        ∧ unixLines s.content = line ++ unixLines (loop size i c stores s).socket.content
        ∧ (loop size i c stores s).socket.Calm ∧ newline ∉ line.dropLast ∧ (c = newline → line = [])
        ∧ ((i : Int) < size - 1 → c ≠ newline → line = [] → s.content = []) := by
  fun_induction loop size i c stores s with
  | case1 i c stores s hmore n c' s' hrecv hn c'' s'' hreturn ih =>
    obtain rfl | ⟨b, s₁, hrecv₁, hcontent, hcalm₁⟩ := recv_cases hcalm
    . cases hrecv
      cases hn
    . rw [hrecv₁] at hrecv
      cases hrecv
      obtain ⟨hunix, hcalm₂⟩ := afterReturn_spec hcalm₁ c'
      rw [hreturn] at hunix hcalm₂
      obtain ⟨line, hret, hstores, hrest, hcalm₃, hline, hnil, _⟩ := ih hcalm₂
      refine ⟨c'' :: line, ?_, ?_, ?_, hcalm₃, ?_, ?_, ?_⟩
      . rw [add_length_cons]
        exact hret
      . rw [append_zipIdx_cons, add_length_cons]
        exact hstores
      . rw [hcontent, hunix, hrest]
        rfl
      . cases line with
        | nil => simp
        | cons b' line =>
          rw [List.dropLast_cons_cons, List.mem_cons, not_or]
          refine ⟨?_, hline⟩
          intro hc''
          cases hnil hc''.symm
      . intro hc
        exact absurd hc hmore.right
      . intro _ _ h
        cases h
  | case2 i c stores s hmore n c' s' hrecv hn ih =>
    obtain rfl | ⟨b, s₁, hrecv₁, hcontent, hcalm₁⟩ := recv_cases hcalm
    . cases hrecv
      obtain ⟨line, hret, hstores, hrest, hcalm₃, hline, hnil, _⟩ := ih hcalm
      refine ⟨line, hret, hstores, hrest, hcalm₃, hline, ?_, ?_⟩
      . intro _
        exact hnil rfl
      . intro _ _ _
        rfl
    . rw [hrecv₁] at hrecv
      cases hrecv
      exact absurd (by decide : (0 : Int) < 1) hn
  | case3 i c stores s hmore =>
    refine ⟨[], rfl, by simp, rfl, hcalm, by simp, fun _ => rfl, ?_⟩
    intro hi hc
    exact absurd ⟨hi, hc⟩ hmore

end readLine

section Pieces

variable {size : Int} {s : Socket}

theorem readLine_line (hsize : 2 ≤ size) (hcalm : s.Calm)
    : unixLines s.content = (readLine size s).text ++ unixLines (readLine size s).socket.content
        ∧ (readLine size s).socket.Calm ∧ ((readLine size s).text.length : Int) ≤ size - 1
        ∧ newline ∉ (readLine size s).text.dropLast ∧ ((readLine size s).ret = 0 → s.content = []) := by
  obtain ⟨line, hret, hstores, hrest, hcalm', hline, _, hend⟩ := @readLine.loop_line size 0 0 [] s hcalm
  obtain ⟨line', hlength, hret', _⟩ := @readLine.loop_stores [] s size 0 0 (by omega)
  rw [Nat.zero_add] at hret hstores
  have htext := LineResult.text_eq hstores hret
  rw [← readLine] at hret htext hrest hcalm' hret'
  rw [htext]
  refine ⟨hrest, hcalm', by omega, hline, ?_⟩
  intro hzero
  rw [hret] at hzero
  exact hend (by omega) (by decide) (List.length_eq_zero_iff.mp hzero)

/--
The pieces are the stream with its line endings as line feeds. Each has room in the buffer and at most one line feed,
at its end.
-/
theorem readAll_flatten (hsize : 2 ≤ size) (hcalm : s.Calm)
    : (readAll size s).flatten = unixLines s.content
        ∧ ∀ piece ∈ readAll size s, (piece.length : Int) ≤ size - 1 ∧ newline ∉ piece.dropLast := by
  fun_induction readAll size s with
  | case1 s hzero =>
    obtain ⟨_, _, _, _, hend⟩ := readLine_line hsize hcalm
    rw [hend hzero]
    exact ⟨rfl, List.forall_mem_nil _⟩
  | case2 s hzero ih =>
    obtain ⟨hrest, hcalm', hlength, hline, _⟩ := readLine_line hsize hcalm
    obtain ⟨hflatten, hpieces⟩ := ih hcalm'
    refine ⟨?_, List.forall_mem_cons.mpr ⟨⟨hlength, hline⟩, hpieces⟩⟩
    rw [List.flatten_cons, hflatten, hrest]

-- A carriage return at the end of a piece, one before another, and one at the end of the stream.
theorem readAll_returns
    : (readAll 8 [.data 65 [13], .data 10 [13, 13], .data 10 [66, 13]]).flatten = [65, 10, 10, 10, 66, 10] := by
  refine (readAll_flatten (by decide) ?_).left
  intro a ha
  simp at ha
  obtain rfl | rfl | rfl := ha
  . exact ⟨65, [13], rfl⟩
  . exact ⟨10, [13, 13], rfl⟩
  . exact ⟨10, [66, 13], rfl⟩

end Pieces
end NetWork
