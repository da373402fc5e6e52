import VetGumstix.Framework.Machine
import VetGumstix.Framework.Rounds
import VetGumstix.Framework.Trials
import VetGumstix.Framework.Keystream
import VetGumstix.Framework.Transition
import VetGumstix.Framework.BitMask
import VetGumstix.Framework.Bytes
import VetGumstix.Framework.OnesComplement
import VetGumstix.Framework.SingleCycle
import VetGumstix.Framework.ShiftRegister
import VetGumstix.Framework.Port
import VetGumstix.Viper.Blocks
import VetGumstix.Viper.Core
import VetGumstix.Viper.Simulator
import VetGumstix.Viper.Safety
import VetGumstix.Viper.Generation
import VetGumstix.Viper.Replay
import VetGumstix.Viper.Attempts
import VetGumstix.Viper.Coverage
import VetGumstix.Viper.Rejection
import VetGumstix.Viper.Rand
import VetGumstix.Viper.Card
import VetGumstix.Viper.Main
import VetGumstix.Viper.Agreement
import VetGumstix.Viper.Noninterference
import VetGumstix.Arm.Isa
import VetGumstix.Swatt.Code
import VetGumstix.Swatt.Checksum
import VetGumstix.Swatt.TFunction
import VetGumstix.Swatt.Loop
import VetGumstix.Swatt.Run
import VetGumstix.Swatt.Attack
import VetGumstix.Swatt.Frame
import VetGumstix.Swatt.Collision
import VetGumstix.Swatt.Documented
import VetGumstix.Swatt.Inputs
import VetGumstix.Swatt.Window
import VetGumstix.Swatt.Passes
import VetGumstix.Linux.Bitrev
import VetGumstix.Linux.Crc32
import VetGumstix.Nic.Checksum
import VetGumstix.Nic.Skb
import VetGumstix.Nic.TxFifo
import VetGumstix.Nic.Poll
import VetGumstix.Nic.Inside
import VetGumstix.Nic.Client
import VetGumstix.Nic.Exchange
import VetGumstix.Nic.Mac
import VetGumstix.Nic.Phy
import VetGumstix.Nic.Filter
import VetGumstix.Nic.RxStop
import VetGumstix.Nic.Napi
import VetGumstix.Nic.Transmit
import VetGumstix.Nic.Receive
import VetGumstix.Nic.Eeprom
import VetGumstix.Nic.Irq
