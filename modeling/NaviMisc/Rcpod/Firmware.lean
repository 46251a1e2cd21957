import NaviMisc.Lib.Pic

/-!
The requests of the rcpod firmware that access memory (firmware/commands.asm).
-/

namespace NaviMisc.Rcpod

open Lib.Pic

inductive Var
  | wValue
  | wIndex
  | temp
  | BD0IAL
  | last_poke_addr
  | byte_count
  | buffer_ptr
  deriving DecidableEq

abbrev Address := Var × ℕ

instance : Coe Var Address := ⟨fun v => (v, 0)⟩

open Var

abbrev Firmware := Cpu Address

section Requests

variable (s : Firmware)

def request_Poke : Firmware := s
  |>.movf wIndex
  |>.movwf last_poke_addr
  |>.movf (wIndex, 1)
  |>.movwf (last_poke_addr, 1)
  |>.bcfIrp
  |>.btfsc (wIndex, 1) 0 (·.bsfIrp)
  |>.movf wIndex
  |>.movwfFsr
  |>.movf wValue
  |>.movwfIndf

def prepare_poke : Firmware := s
  |>.incf_f last_poke_addr
  |>.btfsc_c (·.incf_f (last_poke_addr, 1))
  |>.bcfIrp
  |>.btfsc (last_poke_addr, 1) 0 (·.bsfIrp)
  |>.movf last_poke_addr
  |>.movwfFsr

def request_Poke4 : Firmware := s
  |> prepare_poke
  |>.movf wValue
  |>.movwfIndf
  |> prepare_poke
  |>.movf (wValue, 1)
  |>.movwfIndf
  |> prepare_poke
  |>.movf wIndex
  |>.movwfIndf
  |> prepare_poke
  |>.movf (wIndex, 1)
  |>.movwfIndf

def Send_Byte_pkt : Firmware := s
  |>.movwf temp
  |>.movf BD0IAL
  |>.movwfFsr
  |>.bsfIrp
  |>.movf temp
  |>.movwfIndf

def request_Peek : Firmware := s
  |>.bcfIrp
  |>.btfsc (wIndex, 1) 0 (·.bsfIrp)
  |>.movf wIndex
  |>.movwfFsr
  |>.movlw 8
  |>.movfIndf
  |> Send_Byte_pkt

def peek8Body : Firmware := s
  |>.bcfIrp
  |>.btfsc (wIndex, 1) 0 (·.bsfIrp)
  |>.movf wIndex
  |>.movwfFsr
  |>.movfIndf
  |>.movwf temp
  |>.movf buffer_ptr
  |>.movwfFsr
  |>.bsfIrp
  |>.movf temp
  |>.movwfIndf
  |>.incf_f buffer_ptr
  |>.incf_f wIndex
  |>.btfsc_c (·.incf_f (wIndex, 1))
  |>.decfsz_f byte_count

def peek8Loop : ℕ → Firmware → Firmware
  | 0, s => s
  | fuel + 1, s =>
    if (peek8Body s).file byte_count = 0 then peek8Body s else peek8Loop fuel (peek8Body s)

def request_Peek8 : Firmware := s
  |>.movf BD0IAL
  |>.movwf buffer_ptr
  |>.movlw 8
  |>.movwf byte_count
  |> peek8Loop 256

end Requests

end NaviMisc.Rcpod
