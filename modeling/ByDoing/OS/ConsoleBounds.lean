import ByDoing.OS.Console

namespace OS

namespace Console

theorem wrap_of_lt {n : Nat} (h : n < 0x100000000) : wrap n = n :=
  Nat.mod_eq_of_lt h

theorem sub_of_le {a b : Nat} (hle : b ≤ a) (ha : a < 0x100000000) : sub a b = a - b := by
  unfold sub
  omega

end Console

namespace VideoMemory

open Console (sub sub_of_le)

variable {m : VideoMemory} {lo hi edi esi n : Nat} {value : BitVec 16}

def Within (m : VideoMemory) (lo hi : Nat) : Prop :=
  ∀ a ∈ m.stores, lo ≤ a ∧ a < hi

namespace Within

theorem poke (h : m.Within lo hi) {address : Nat} (hlo : lo ≤ address) (hhi : address < hi) (value : BitVec 8)
    : (m.poke address value).Within lo hi := by
  intro a ha
  cases ha with
  | head => exact ⟨hlo, hhi⟩
  | tail _ ha => exact h a ha

theorem pokeWord (h : m.Within lo hi) {address : Nat} (hlo : lo ≤ address) (hhi : address + 2 ≤ hi)
    (value : BitVec 16)
    : (m.pokeWord address value).Within lo hi := by
  apply poke
  . exact h.poke hlo (by omega) _
  . omega
  . omega

theorem copyLong (h : m.Within lo hi) (hlo : lo ≤ edi) (hhi : edi + 4 ≤ hi) (esi : Nat)
    : (m.copyLong edi esi).Within lo hi := by
  apply pokeWord
  . exact h.pokeWord hlo (by omega) _
  . omega
  . omega

theorem stosw (h : m.Within lo hi) (hlo : lo ≤ edi) (hhi : edi + 2 * n ≤ hi) (value : BitVec 16)
    : (m.stosw value edi n).Within lo hi := by
  induction n generalizing m edi with
  | zero => exact h
  | succ n ih =>
    apply ih
    . exact h.pokeWord hlo (by omega) value
    . omega
    . omega

theorem movsl (h : m.Within lo hi) (hlo : lo ≤ edi) (hhi : edi + 4 * n ≤ hi) (esi : Nat)
    : (m.movsl edi esi n).Within lo hi := by
  induction n generalizing m edi esi with
  | zero => exact h
  | succ n ih =>
    apply ih
    . exact h.copyLong hlo (by omega) esi
    . omega
    . omega

theorem stoswDown (h : m.Within lo hi) (hlo : lo + 2 * n ≤ edi + 2) (hhi : edi + 2 ≤ hi) (hlt : hi < 0x100000000)
    (value : BitVec 16)
    : (m.stoswDown value edi n).Within lo hi := by
  induction n generalizing m edi with
  | zero => exact h
  | succ n ih =>
    have hword := h.pokeWord (by omega) hhi value
    rw [VideoMemory.stoswDown]
    by_cases hle : 2 ≤ edi
    . rw [sub_of_le hle (by omega)]
      apply ih
      . exact hword
      . omega
      . omega
    . have hzero : n = 0 := by omega
      rw [hzero]
      exact hword

theorem movslDown (h : m.Within lo hi) (hlo : lo + 4 * n ≤ edi + 4) (hhi : edi + 4 ≤ hi) (hlt : hi < 0x100000000)
    (esi : Nat)
    : (m.movslDown edi esi n).Within lo hi := by
  induction n generalizing m edi esi with
  | zero => exact h
  | succ n ih =>
    have hlong := h.copyLong (by omega) hhi esi
    rw [VideoMemory.movslDown]
    by_cases hle : 4 ≤ edi
    . rw [sub_of_le hle (by omega)]
      apply ih
      . exact hlong
      . omega
      . omega
    . have hzero : n = 0 := by omega
      rw [hzero]
      exact hlong

end Within
end VideoMemory

namespace Console

theorem within_insertLoop {m : VideoMemory} {lo hi p n : Nat} {old : BitVec 16} (h : m.Within lo hi) (hlo : lo ≤ p)
    (hhi : p + 2 * n ≤ hi)
    : (insertLoop m old p n).Within lo hi := by
  induction n generalizing m old p with
  | zero => exact h
  | succ n ih =>
    apply ih
    . exact h.pokeWord hlo (by omega) old
    . omega
    . omega

theorem within_deleteLoop {m : VideoMemory} {lo hi p n : Nat} (h : m.Within lo hi) (hlo : lo ≤ p)
    (hhi : p + 2 * n ≤ hi)
    : (deleteLoop m p n).Within lo hi := by
  induction n generalizing m p with
  | zero => exact h
  | succ n ih =>
    apply ih
    . exact h.pokeWord hlo (by omega) _
    . omega
    . omega

-- The bounds of the driver. The addresses are those of the words from `origin` to `scr_end`.
structure Bounded (v : Video) (c : Console) : Prop where
  pos_eq : c.pos = c.origin + c.y * v.sizeRow + 2 * c.x
  x_le : c.x ≤ v.numColumns
  y_lt : c.y < v.numLines
  top_lt : c.top < c.bottom
  bottom_le : c.bottom ≤ v.numLines
  npar_lt : c.npar < NPAR
  scrEnd_eq : c.scrEnd = c.origin + v.numLines * v.sizeRow
  start_le : v.memStart ≤ c.origin
  end_le : c.scrEnd ≤ v.memEnd
  stores : c.screen.Within v.memStart v.memEnd

namespace Video

theorem sizeRow_eq (v : Video) : v.sizeRow = 2 * v.numColumns :=
  rfl

theorem screen_le (v : Video) : v.memStart + v.numLines * v.sizeRow ≤ v.memEnd :=
  v.fits

end Video

theorem lines_split {top bottom : Nat} (h : top < bottom) (row : Nat)
    : row * top + (bottom - top - 1) * row + row = bottom * row := by
  obtain ⟨k, rfl⟩ := Nat.exists_eq_add_of_lt h
  rw [show top + k + 1 - top - 1 = k by omega, Nat.add_mul, Nat.add_mul, Nat.one_mul, Nat.mul_comm row top]

theorem longs_le (k columns : Nat) : 4 * (k * columns / 2) ≤ k * (2 * columns) := by
  rw [Nat.mul_left_comm]
  omega

theorem x_scrup (v : Video) (c : Console) : (c.scrup v).x = c.x := by
  unfold scrup
  split
  . dsimp only
    split <;> rfl
  . rfl

theorem x_lf (v : Video) (c : Console) : (c.lf v).x = c.x := by
  unfold lf
  split
  . rfl
  . exact x_scrup v c

namespace Bounded

variable {v : Video} {c : Console}

theorem line_le {y : Nat} (h : c.Bounded v) (hy : y ≤ v.numLines) : c.origin + y * v.sizeRow ≤ c.scrEnd := by
  rw [h.scrEnd_eq]
  exact Nat.add_le_add_left (Nat.mul_le_mul_right _ hy) _

theorem cursor_line (h : c.Bounded v) : c.origin + c.y * v.sizeRow + v.sizeRow ≤ c.scrEnd := by
  have hle := h.line_le (Nat.succ_le_of_lt h.y_lt)
  rw [Nat.succ_mul] at hle
  omega

theorem pos_le (h : c.Bounded v) : c.pos ≤ c.scrEnd := by
  have hline := h.cursor_line
  have hx := h.x_le
  have hrow := v.sizeRow_eq
  rw [h.pos_eq]
  omega

theorem scrEnd_lt (h : c.Bounded v) : c.scrEnd < 0x100000 :=
  Nat.lt_of_le_of_lt h.end_le v.end_lt

theorem withScreen (h : c.Bounded v) {screen : VideoMemory} (hscreen : screen.Within v.memStart v.memEnd)
    : Bounded v { c with screen } :=
  { h with stores := hscreen }

theorem move (h : c.Bounded v) {x y pos : Nat} (hx : x ≤ v.numColumns) (hy : y < v.numLines)
    (hpos : pos = c.origin + y * v.sizeRow + 2 * x)
    : Bounded v { c with x, y, pos } :=
  { h with pos_eq := hpos, x_le := hx, y_lt := hy }

theorem gotoxy (h : c.Bounded v) (newX newY : Nat) : (c.gotoxy v newX newY).Bounded v := by
  unfold Console.gotoxy
  split
  . exact h
  . next hrange =>
    have hx : newX ≤ v.numColumns := by omega
    have hy : newY < v.numLines := by omega
    have hline := h.line_le (Nat.succ_le_of_lt hy)
    rw [Nat.succ_mul] at hline
    have hlt := h.scrEnd_lt
    have hrow := v.sizeRow_eq
    apply h.move hx hy
    apply wrap_of_lt
    omega

theorem region (h : c.Bounded v)
    : c.origin + v.sizeRow * c.top + (c.bottom - c.top - 1) * v.sizeRow + v.sizeRow ≤ c.scrEnd := by
  have hle := h.line_le h.bottom_le
  have hsplit := lines_split h.top_lt v.sizeRow
  omega

theorem lines_lt (h : c.Bounded v) : v.numLines < 0x100000 := by
  have hlt := h.scrEnd_lt
  have hle : v.numLines * 1 ≤ v.numLines * v.sizeRow := by
    apply Nat.mul_le_mul_left
    have hcolumns := v.columns_ge
    unfold Video.sizeRow
    omega
  rw [h.scrEnd_eq] at hlt
  omega

theorem longs_eq (h : c.Bounded v)
    : wrap (sub (sub c.bottom c.top) 1 * v.numColumns) / 2 = (c.bottom - c.top - 1) * v.numColumns / 2 := by
  have hlt := h.scrEnd_lt
  have hregion := h.region
  have hlines := h.lines_lt
  have hbottom := h.bottom_le
  have htop := h.top_lt
  have hlongs : (c.bottom - c.top - 1) * v.sizeRow = 2 * ((c.bottom - c.top - 1) * v.numColumns) := by
    rw [Video.sizeRow_eq, Nat.mul_left_comm]
  rw [sub_of_le (Nat.le_of_lt htop) (by omega), sub_of_le (by omega) (by omega), wrap_of_lt (by omega)]

theorem scrollUp (h : c.Bounded v) : (c.scrollUp v).Within v.memStart v.memEnd := by
  have hlt := h.scrEnd_lt
  have hregion := h.region
  have hstart := h.start_le
  have hend := h.end_le
  have hrow := v.sizeRow_eq
  have hlongs := longs_le (c.bottom - c.top - 1) v.numColumns
  rw [← hrow] at hlongs
  unfold Console.scrollUp
  dsimp only
  rw [h.longs_eq, wrap_of_lt (by omega)]
  apply VideoMemory.Within.stosw
  . apply VideoMemory.Within.movsl
    . exact h.stores
    . omega
    . omega
  . omega
  . omega

theorem scrdown (h : c.Bounded v) : (c.scrdown v).Bounded v := by
  have hlt := h.scrEnd_lt
  have hline := h.line_le h.bottom_le
  have hsplit := lines_split h.top_lt v.sizeRow
  have hstart := h.start_le
  have hstart' := v.start_ge
  have hend := h.end_le
  have hrow := v.sizeRow_eq
  have hlongs := longs_le (c.bottom - c.top - 1) v.numColumns
  rw [← hrow] at hlongs
  have hcolumns := v.columns_ge
  have hmemEnd := v.end_lt
  apply h.withScreen
  rw [h.longs_eq, Nat.mul_comm v.sizeRow c.bottom, wrap_of_lt (n := c.origin + c.bottom * v.sizeRow) (by omega),
    sub_of_le (a := c.origin + c.bottom * v.sizeRow) (by omega) (by omega),
    sub_of_le (a := c.origin + c.bottom * v.sizeRow - 4) (by omega) (by omega), wrap_of_lt (n := _ + 2) (by omega)]
  apply VideoMemory.Within.stoswDown
  . apply VideoMemory.Within.movslDown
    . exact h.stores
    . omega
    . omega
    . omega
  . omega
  . omega
  . omega

theorem scrup (h : c.Bounded v) : (c.scrup v).Bounded v := by
  have hlt := h.scrEnd_lt
  have hcursor := h.cursor_line
  have hpos := h.pos_le
  have hstart := h.start_le
  have hend := h.end_le
  have hscreen := v.screen_le
  have hrow := v.sizeRow_eq
  have heq := h.scrEnd_eq
  unfold Console.scrup
  split
  . dsimp only
    rw [wrap_of_lt (n := c.scrEnd + v.sizeRow) (by omega), wrap_of_lt (n := c.origin + v.sizeRow) (by omega),
      wrap_of_lt (n := c.pos + v.sizeRow) (by omega)]
    split
    . have hlines := h.lines_lt
      have hy := h.y_lt
      have hlongs := longs_le (v.numLines - 1) v.numColumns
      have hsplit : (v.numLines - 1) * v.sizeRow + v.sizeRow = v.numLines * v.sizeRow := by
        rw [← Nat.succ_mul, Nat.succ_eq_add_one, Nat.sub_add_cancel (by omega)]
      have hdouble : (v.numLines - 1) * v.sizeRow = 2 * ((v.numLines - 1) * v.numColumns) := by
        rw [hrow, Nat.mul_left_comm]
      rw [← hrow] at hlongs
      have hmemEnd := v.end_lt
      have hpos_eq := h.pos_eq
      rw [sub_of_le (a := v.numLines) (by omega) (by omega), wrap_of_lt (by omega),
        sub_of_le (a := c.origin + v.sizeRow) (by omega) (by omega),
        sub_of_le (a := c.scrEnd + v.sizeRow) (by omega) (by omega),
        sub_of_le (a := c.pos + v.sizeRow) (by omega) (by omega)]
      have hstores : ((c.screen.movsl v.memStart (c.origin + v.sizeRow) ((v.numLines - 1) * v.numColumns / 2)).stosw
          v.eraseChar (v.memStart + 4 * ((v.numLines - 1) * v.numColumns / 2)) v.numColumns).Within v.memStart
          v.memEnd := by
        apply VideoMemory.Within.stosw
        . apply VideoMemory.Within.movsl
          . exact h.stores
          . omega
          . omega
        . omega
        . omega
      exact { h with
        pos_eq := by
          dsimp only
          omega
        scrEnd_eq := by
          dsimp only
          omega
        start_le := Nat.le_refl _
        end_le := by
          dsimp only
          omega
        stores := hstores }
    . next hroom =>
      rw [sub_of_le (by omega) (by omega)]
      have hpos_eq := h.pos_eq
      have hstores : (c.screen.stosw v.eraseChar (c.scrEnd + v.sizeRow - v.sizeRow) v.numColumns).Within v.memStart
          v.memEnd := by
        apply h.stores.stosw
        . omega
        . omega
      exact { h with
        pos_eq := by
          dsimp only
          omega
        scrEnd_eq := by
          dsimp only
          omega
        start_le := by
          dsimp only
          omega
        end_le := by
          dsimp only
          omega
        stores := hstores }
  . exact h.withScreen h.scrollUp

theorem lf (h : c.Bounded v) : (c.lf v).Bounded v := by
  have hlines := h.lines_lt
  have hy := h.y_lt
  unfold Console.lf
  rw [wrap_of_lt (n := c.y + 1) (by omega)]
  split
  . next hbelow =>
    have hbottom := h.bottom_le
    have hpos := h.pos_le
    have hlt := h.scrEnd_lt
    have hline := h.cursor_line
    have hpos_eq := h.pos_eq
    apply h.move h.x_le (by omega)
    rw [wrap_of_lt (by omega), Nat.succ_mul]
    omega
  . exact h.scrup

theorem ri (h : c.Bounded v) : (c.ri v).Bounded v := by
  have hlines := h.lines_lt
  have hy := h.y_lt
  unfold Console.ri
  split
  . next habove =>
    have hpos := h.pos_le
    have hlt := h.scrEnd_lt
    have hpos_eq := h.pos_eq
    have hsplit : (c.y - 1) * v.sizeRow + v.sizeRow = c.y * v.sizeRow := by
      rw [← Nat.succ_mul, Nat.succ_eq_add_one, Nat.sub_add_cancel (by omega)]
    rw [sub_of_le (a := c.y) (by omega) (by omega), sub_of_le (a := c.pos) (by omega) (by omega)]
    apply h.move h.x_le (by omega)
    omega
  . exact h.scrdown

theorem cr (h : c.Bounded v) : c.cr.Bounded v := by
  have hpos := h.pos_le
  have hlt := h.scrEnd_lt
  have hpos_eq := h.pos_eq
  unfold Console.cr
  rw [sub_of_le (by omega) (by omega)]
  apply h.move (Nat.zero_le _) h.y_lt
  omega

theorem back (h : c.Bounded v) (hx : c.x ≠ 0) : Bounded v { c with x := sub c.x 1, pos := sub c.pos 2 } := by
  have hpos := h.pos_le
  have hlt := h.scrEnd_lt
  have hpos_eq := h.pos_eq
  have hle := h.x_le
  rw [sub_of_le (a := c.pos) (by omega) (by omega), sub_of_le (a := c.x) (by omega) (by omega)]
  apply h.move (by omega) h.y_lt
  omega

theorem pokeWord (h : c.Bounded v) (hx : c.x < v.numColumns) (value : BitVec 16)
    : (c.screen.pokeWord c.pos value).Within v.memStart v.memEnd := by
  have hline := h.cursor_line
  have hpos_eq := h.pos_eq
  have hrow := v.sizeRow_eq
  have hstart := h.start_le
  have hend := h.end_le
  apply h.stores.pokeWord
  . omega
  . omega

theorem del (h : c.Bounded v) : (c.del v).Bounded v := by
  unfold Console.del
  split
  . next hx =>
    have hback := h.back hx
    have hle := h.x_le
    have hlt : sub c.x 1 < v.numColumns := by
      unfold sub
      have hcolumns := h.scrEnd_lt
      have hline := h.cursor_line
      have hrow := v.sizeRow_eq
      omega
    exact hback.withScreen (hback.pokeWord hlt v.eraseChar)
  . exact h

theorem stosw (h : c.Bounded v) {edi n : Nat} (hlo : c.origin ≤ edi) (hhi : edi + 2 * n ≤ c.scrEnd)
    (value : BitVec 16)
    : Bounded v { c with screen := c.screen.stosw value edi n } := by
  have hstart := h.start_le
  have hend := h.end_le
  apply h.withScreen
  apply h.stores.stosw
  . omega
  . omega

theorem csiJ (h : c.Bounded v) (par : Nat) : (c.csiJ v par).Bounded v := by
  have hpos := h.pos_le
  have hlt := h.scrEnd_lt
  have hpos_eq := h.pos_eq
  unfold Console.csiJ
  split
  . rw [sub_of_le hpos (by omega)]
    apply h.stosw
    . omega
    . omega
  . rw [sub_of_le (by omega) (by omega)]
    apply h.stosw
    . omega
    . omega
  . have heq := h.scrEnd_eq
    rw [Video.sizeRow_eq, Nat.mul_left_comm, Nat.mul_comm v.numLines] at heq
    rw [wrap_of_lt (by omega)]
    apply h.stosw
    . omega
    . omega
  . exact h

theorem csiK (h : c.Bounded v) (par : Nat) : (c.csiK v par).Bounded v := by
  have hpos := h.pos_le
  have hlt := h.scrEnd_lt
  have hpos_eq := h.pos_eq
  have hline := h.cursor_line
  have hrow := v.sizeRow_eq
  have hx := h.x_le
  unfold Console.csiK
  split
  . split
    . exact h
    . apply h.stosw
      . omega
      . omega
  . dsimp only
    rw [sub_of_le (by omega) (by omega)]
    apply h.stosw
    . omega
    . split
      . omega
      . omega
  . rw [sub_of_le (by omega) (by omega)]
    apply h.stosw
    . omega
    . omega
  . exact h

theorem insertChar (h : c.Bounded v) : (c.insertChar v).Bounded v := by
  have hline := h.cursor_line
  have hpos_eq := h.pos_eq
  have hrow := v.sizeRow_eq
  have hx := h.x_le
  have hstart := h.start_le
  have hend := h.end_le
  apply h.withScreen
  apply within_insertLoop h.stores
  . omega
  . omega

theorem deleteChar (h : c.Bounded v) : (c.deleteChar v).Bounded v := by
  have hline := h.cursor_line
  have hpos_eq := h.pos_eq
  have hrow := v.sizeRow_eq
  have hstart := h.start_le
  have hend := h.end_le
  unfold Console.deleteChar
  split
  . exact h
  . apply h.withScreen
    apply VideoMemory.Within.pokeWord
    . apply within_deleteLoop h.stores
      . omega
      . omega
    . omega
    . omega

theorem fromCursor (h : c.Bounded v) : Bounded v { c with top := c.y, bottom := v.numLines } :=
  { h with top_lt := h.y_lt, bottom_le := Nat.le_refl _ }

theorem withRegion (h : c.Bounded v) {top bottom : Nat} (htop : top < bottom) (hbottom : bottom ≤ v.numLines)
    : Bounded v { c with top, bottom } :=
  { h with top_lt := htop, bottom_le := hbottom }

theorem insertLine (h : c.Bounded v) : (c.insertLine v).Bounded v :=
  h.fromCursor.scrdown.withRegion h.top_lt h.bottom_le

theorem deleteLine (h : c.Bounded v) : (c.deleteLine v).Bounded v :=
  h.fromCursor.scrup.withRegion h.top_lt h.bottom_le

theorem iterate {f : Console → Console} (hf : ∀ c, Bounded v c → Bounded v (f c)) (h : c.Bounded v) (n : Nat)
    : (f^[n] c).Bounded v := by
  induction n generalizing c with
  | zero => exact h
  | succ n ih => exact ih (hf c h)

theorem setPar (h : c.Bounded v) (i value : Nat) : (c.setPar i value).Bounded v :=
  { h with }

theorem decPar (h : c.Bounded v) (i : Nat) : (c.decPar i).Bounded v := by
  unfold Console.decPar
  split
  . exact h.setPar _ _
  . exact h

theorem incPar (h : c.Bounded v) (i : Nat) : (c.incPar i).Bounded v := by
  unfold Console.incPar
  split
  . exact h.setPar _ _
  . exact h

theorem withState (h : c.Bounded v) (state : EscState) : Bounded v { c with state } :=
  { h with }

theorem nextLine (h : c.Bounded v) {x pos : Nat} (hx : v.numColumns ≤ x) (hx' : x ≤ v.numColumns + 8)
    (hpos : pos = c.origin + c.y * v.sizeRow + 2 * x)
    : Bounded v { c with x := sub x v.numColumns, pos := sub pos v.sizeRow } := by
  have hline := h.cursor_line
  have hlt := h.scrEnd_lt
  have hrow := v.sizeRow_eq
  have hcolumns := v.columns_ge
  rw [sub_of_le hx (by omega), sub_of_le (by omega) (by omega)]
  apply h.move (by omega) h.y_lt
  omega

theorem put (h : c.Bounded v) (hx : c.x < v.numColumns) (value : BitVec 16)
    : Bounded v { c with screen := c.screen.pokeWord c.pos value, pos := wrap (c.pos + 2), x := wrap (c.x + 1) } := by
  have hpos := h.pos_le
  have hlt := h.scrEnd_lt
  have hline := h.cursor_line
  have hrow := v.sizeRow_eq
  have hpos_eq := h.pos_eq
  rw [wrap_of_lt (n := c.pos + 2) (by omega), wrap_of_lt (n := c.x + 1) (by omega)]
  apply (h.withScreen (h.pokeWord hx value)).move
  . omega
  . exact h.y_lt
  . show c.pos + 2 = c.origin + c.y * v.sizeRow + 2 * (c.x + 1)
    omega

theorem ite {p : Prop} [Decidable p] {a b : Console} (ha : p → a.Bounded v) (hb : ¬p → b.Bounded v)
    : (if p then a else b).Bounded v := by
  split
  . next hp => exact ha hp
  . next hp => exact hb hp

theorem writeGround (h : c.Bounded v) (erase ch : BitVec 8) : (c.writeGround v erase ch).Bounded v := by
  have hx := h.x_le
  have hpos := h.pos_le
  have hlt := h.scrEnd_lt
  have hline := h.cursor_line
  have hrow := v.sizeRow_eq
  have hpos_eq := h.pos_eq
  have hcolumns := v.columns_ge
  unfold Console.writeGround
  apply Bounded.ite
  . intro _
    dsimp only
    split
    . next hfull =>
      have hnext := h.nextLine hfull (by omega) hpos_eq
      apply hnext.lf.put
      rw [x_lf]
      show sub c.x v.numColumns < v.numColumns
      rw [sub_of_le hfull (by omega)]
      omega
    . apply h.put
      omega
  . intro _
    apply Bounded.ite
    . intro _
      exact h.withState _
    . intro _
      apply Bounded.ite
      . intro _
        exact h.lf
      . intro _
        apply Bounded.ite
        . intro _
          exact h.cr
        . intro _
          apply Bounded.ite
          . intro _
            exact h.del
          . intro _
            apply Bounded.ite
            . intro _
              apply Bounded.ite
              . intro hne
                exact h.back hne
              . intro _
                exact h
            . intro _
              apply Bounded.ite
              . intro _
                dsimp only
                rw [wrap_of_lt (n := c.x + _) (by omega), wrap_of_lt (n := c.pos + _) (by omega)]
                split
                . apply Bounded.lf
                  apply h.nextLine
                  . omega
                  . omega
                  . omega
                . apply h.move (by omega) h.y_lt
                  omega
              . intro _
                apply Bounded.ite
                . intro _
                  exact { h with }
                . intro _
                  exact h

theorem respond (h : c.Bounded v) : c.respond.Bounded v :=
  { h with }

theorem saveCur (h : c.Bounded v) : c.saveCur.Bounded v :=
  { h with }

theorem restoreCur (h : c.Bounded v) : (c.restoreCur v).Bounded v :=
  h.gotoxy _ _

theorem csim (h : c.Bounded v) : c.csim.Bounded v :=
  { h with }

theorem writeEscape (h : c.Bounded v) (ch : BitVec 8) : (c.writeEscape v ch).Bounded v := by
  have hground := h.withState .ground
  unfold Console.writeEscape
  dsimp only
  split
  . exact hground.withState .bracket
  . exact hground.gotoxy _ _
  . exact hground.ri
  . exact hground.lf
  . exact hground.respond
  . exact hground.saveCur
  . exact hground.restoreCur
  . exact hground

theorem writeFinal (h : c.Bounded v) (ch : BitVec 8) : (c.writeFinal v ch).Bounded v := by
  have hground := h.withState .ground
  unfold Console.writeFinal
  dsimp only
  split
  . exact (hground.decPar 0).gotoxy _ _
  . exact (hground.decPar 0).gotoxy _ _
  . exact (hground.incPar 0).gotoxy _ _
  . exact (hground.incPar 0).gotoxy _ _
  . exact (hground.incPar 0).gotoxy _ _
  . exact (hground.incPar 0).gotoxy _ _
  . exact (hground.incPar 0).gotoxy _ _
  . exact (hground.incPar 0).gotoxy _ _
  . exact (hground.incPar 0).gotoxy _ _
  . exact (hground.incPar 0).gotoxy _ _
  . exact (hground.decPar 0).gotoxy _ _
  . exact ((hground.decPar 0).decPar 1).gotoxy _ _
  . exact ((hground.decPar 0).decPar 1).gotoxy _ _
  . exact hground.csiJ _
  . exact hground.csiK _
  . exact hground.iterate (fun _ h => h.insertLine) _
  . exact hground.iterate (fun _ h => h.deleteLine) _
  . exact hground.iterate (fun _ h => h.deleteChar) _
  . exact hground.iterate (fun _ h => h.insertChar) _
  . exact hground.csim
  . split
    . split
      . next hregion => exact ((hground.decPar 0).setPar 1 v.numLines).withRegion hregion.left hregion.right
      . exact (hground.decPar 0).setPar 1 v.numLines
    . split
      . next hregion => exact (hground.decPar 0).withRegion hregion.left hregion.right
      . exact hground.decPar 0
  . exact hground.saveCur
  . exact hground.restoreCur
  . exact hground

theorem writeParameters (h : c.Bounded v) (ch : BitVec 8) : (c.writeParameters v ch).Bounded v := by
  unfold Console.writeParameters
  split
  . next hsemicolon => exact { h with npar_lt := Nat.add_lt_of_lt_sub hsemicolon.right }
  . split
    . exact h.setPar _ _
    . exact h.writeFinal ch

theorem writeBracket (h : c.Bounded v) (ch : BitVec 8) : (c.writeBracket v ch).Bounded v := by
  have hclear : Bounded v { c with par := fun _ => 0, npar := 0, state := .parameters, ques := ch == 0x3f } :=
    { h with npar_lt := Nat.zero_lt_succ 15 }
  unfold Console.writeBracket
  dsimp only
  split
  . exact hclear
  . exact hclear.writeParameters ch

theorem conWrite (h : c.Bounded v) (erase ch : BitVec 8) : (c.conWrite v erase ch).Bounded v := by
  unfold Console.conWrite
  split
  . exact h.writeGround erase ch
  . exact h.writeEscape ch
  . exact h.writeBracket ch
  . exact h.writeParameters ch

end Bounded

theorem within_pokeDesc {m : VideoMemory} {lo hi p : Nat} {bs : List (BitVec 8)} (h : m.Within lo hi) (hlo : lo ≤ p)
    (hhi : p + 2 * bs.length ≤ hi)
    : (pokeDesc m p bs).Within lo hi := by
  induction bs generalizing m p with
  | nil => exact h
  | cons b bs ih =>
    rw [List.length_cons] at hhi
    apply ih
    . exact h.poke hlo (by omega) b
    . omega
    . omega

theorem length_displayDesc (t : VideoType) : (Setup.displayDesc t).length = 4 := by
  cases t <;> rfl

theorem conInit_bounded (s : Setup) (byte : Nat → BitVec 8) : (conInit s byte).Bounded s.video := by
  have hscreen := s.video.screen_le
  have hcolumns := s.video.columns_ge
  have hrow := s.video.sizeRow_eq
  have hline : 1 * s.video.sizeRow ≤ s.video.numLines * s.video.sizeRow :=
    Nat.mul_le_mul_right _ (show 1 ≤ 25 by decide)
  have hlt := s.video.end_lt
  have hstores : (pokeDesc { byte, stores := [] } (s.video.memStart + s.video.sizeRow - 8)
      (Setup.displayDesc s.video.videoType)).Within s.video.memStart s.video.memEnd := by
    apply within_pokeDesc
    . intro a ha
      cases ha
    . omega
    . rw [length_displayDesc]
      omega
  have hy := s.y_lt
  have hplace : s.y * s.video.sizeRow + s.video.sizeRow ≤ s.video.numLines * s.video.sizeRow := by
    rw [← Nat.succ_mul]
    exact Nat.mul_le_mul_right _ hy
  have hx : s.x ≤ s.video.numColumns := s.x_le
  have hon : ¬(s.x > s.video.numColumns ∨ s.y ≥ s.video.numLines) := by
    rw [not_or]
    exact ⟨Nat.not_lt.mpr hx, Nat.not_le.mpr hy⟩
  unfold conInit gotoxy
  dsimp only
  rw [if_neg hon, wrap_of_lt (by omega)]
  exact {
    pos_eq := rfl
    x_le := hx
    y_lt := hy
    top_lt := Nat.zero_lt_of_lt hy
    bottom_le := Nat.le_refl _
    npar_lt := Nat.zero_lt_succ 15
    scrEnd_eq := rfl
    start_le := Nat.le_refl _
    end_le := hscreen
    stores := hstores
  }

/--
The bounds hold whatever bytes are written to the console, with any characters for `ERASE_CHAR`.
-/
theorem conWrite_bounded (s : Setup) (byte : Nat → BitVec 8) (stream : List (BitVec 8 × BitVec 8))
    : (stream.foldl (fun c r => c.conWrite s.video r.fst r.snd) (conInit s byte)).Bounded s.video := by
  have hinit := conInit_bounded s byte
  generalize conInit s byte = c at hinit
  induction stream generalizing c with
  | nil => exact hinit
  | cons r stream ih => exact ih _ (hinit.conWrite r.fst r.snd)

def vga : Setup :=
  {
    mode := 3
    columns := 80
    egaBx := 0
    x := 0
    y := 24
    columns_ge := by decide
    columns_le := by decide
    x_le := by decide
    y_lt := by decide
  }

example : (conInit vga fun _ => 0).pos = 0xb8000 + 24 * 160 := by
  decide

end Console
end OS
